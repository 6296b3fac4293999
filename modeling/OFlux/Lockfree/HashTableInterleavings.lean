import OFlux.Library.Machine
import OFlux.Lockfree.HashTableMap

/-!
# The growing hash table under interleavings

Any number of threads call {lit}`get`, {lit}`remove` and {lit}`compareAndSwap`.  Every access to a
key, to a value, to {lit}`_next`, {lit}`_impl` and {lit}`num_entries_copied` is one step, and the
steps of the calls interleave freely.

The tables are numbered in the order in which they are made: {lit}`_next` of a table is the one with
the next number, once that has been made.  A table that is unlinked is kept, because
{lit}`release` stores the reference count that it has just read, so that the count never drops to
zero.  Two numbers are left open: the count of the keys, by which {lit}`startCopy` chooses between
two sizes of the next table, and the distributed counter {lit}`copy_scan`, by which a thread chooses
what it copies next.

A call that changes a value is noted with its answer at the step that does so.

Main definitions:

- {lit}`Memory`: what the threads share.
- {lit}`Pc`: where a thread is; {lit}`CopyPc`: where it is in {lit}`copyEntry`.
- {lit}`Next`: one step of a thread.
-/

namespace OFlux
namespace Lockfree

open Library HashTableConstants

/-! ## Calls -/

namespace Call

variable {K : Type}

/-- The key that a call is about. -/
def key : Call K → K
  | .get k => k
  | .remove k => k
  | .compareAndSwap k _ _ _ => k

/-- The expected value and the new one, if the call is not a {lit}`get`. -/
def swap : Call K → Option (Word × Word)
  | .get _ => none
  | .remove _ => some (CasExpect.whatever, doesNotExist)
  | .compareAndSwap _ expectedVal newVal _ => some (expectedVal, newVal)

/-- At an empty entry the call goes on to put its key there; otherwise the key does not exist. -/
def PutsKey (c : Call K) : Prop :=
  ∃ p ∈ c.swap, ¬ (p.1 ≠ CasExpect.doesNotExist ∧ p.1 ≠ CasExpect.whatever) ∧ p.2 ≠ doesNotExist

/-- What the call writes over an untagged value, if anything. -/
def written (c : Call K) (entVal : Word) : Option Word :=
  match c.swap with
  | none => none
  | some (expectedVal, newVal) =>
      let oldExisted := entVal ≠ tombStone ∧ entVal ≠ doesNotExist
      if expectedVal ≠ CasExpect.whatever ∧ expectedVal ≠ entVal ∧
          expectedVal ≠ (if oldExisted then CasExpect.exists_ else CasExpect.doesNotExist) then
        none
      else if (newVal = doesNotExist ∧ ¬ oldExisted) ∨ entVal = newVal then none
      else some (if newVal = doesNotExist then tombStone else newVal)

end Call

/-- The entry has been copied, or need not be. -/
def Done (v : Word) : Prop :=
  v = copiedValue ∨ v = tagValue tombStone

instance : DecidablePred Done := fun v =>
  inferInstanceAs (Decidable (v = copiedValue ∨ v = tagValue tombStone))

namespace SharedTables

variable {K θ : Type}

/-! ## State -/

/-- The tables up to the last one, the number of the one that {lit}`_impl` points to, and the calls
that have changed a value. -/
structure Memory (K : Type) where
  tables : Nat → Implementation K := fun _ => Tables.new.impl
  last : Nat := 0
  impl : Nat := 0
  updates : List (Call K × Word) := []

/-- An entry that is to be copied, of the table {lit}`source`, and the table to put it into. -/
structure Copying where
  source : Nat
  entry : Nat
  target : Nat

/-- Where a thread is in {lit}`copyEntry`. -/
inductive CopyPc (K : Type) where
  | readValue
  | putCopied
  | tag
  | readKey (entVal : Word)
  | search (entVal : Word) (entKey : K) (rest : List Nat)
  | full (entVal : Word) (entKey : K)
  | startCopy (entVal : Word) (entKey : K)
  | putKey (entVal : Word) (entKey : K) (j : Nat)
  | putValue (entVal : Word) (entKey : K) (j : Nat)
  | finish (did : Bool)

/-- Who called {lit}`copyEntry`: a call that found a tagged value, or {lit}`helpCopy`, with the
entries that are left and the number of those it has copied. -/
inductive Caller where
  | call
  | help (entries : List Nat) (numCopied : Nat)

/-- Where a thread is in its call. -/
inductive Pc (K : Type) where
  | idle
  | readNext (c : Call K) (n : Nat)
  | readNumCopied (c : Call K) (n : Nat)
  | chooseChunk (c : Call K) (n : Nat)
  | help (c : Call K) (n : Nat) (entries : List Nat) (numCopied : Nat)
  | unlink (c : Call K) (n : Nat)
  | search (c : Call K) (n : Nat) (rest : List Nat)
  | full (c : Call K) (n : Nat)
  | startCopy (c : Call K) (n : Nat)
  | putKey (c : Call K) (n i : Nat)
  | readValue (c : Call K) (n i : Nat)
  | putValue (c : Call K) (n i : Nat) (entVal newVal : Word)
  | copy (c : Call K) (caller : Caller) (e : Copying) (p : CopyPc K)
  | addCopied (c : Call K) (n : Nat)
  | returns (c : Call K) (answer : Word)

namespace Memory

/-- The key of entry `i` of table `n`. -/
def key (M : Memory K) (n i : Nat) : Option K := (M.tables n).key i

/-- The value of entry `i` of table `n`. -/
def value (M : Memory K) (n i : Nat) : Word := (M.tables n).value i

/-- Writes table `n`. -/
def setTable (M : Memory K) (n : Nat) (t : Implementation K) : Memory K :=
  { M with tables := Function.update M.tables n t }

/-- Writes the key of entry `i` of table `n`. -/
def setKey (M : Memory K) (n i : Nat) (k : K) : Memory K :=
  M.setTable n ((M.tables n).setKey i k)

/-- Writes the value of entry `i` of table `n`. -/
def setValue (M : Memory K) (n i : Nat) (v : Word) : Memory K :=
  M.setTable n ((M.tables n).setValue i v)

/-- Counts copied entries of table `n`. -/
def addCopied (M : Memory K) (n numCopied : Nat) : Memory K :=
  M.setTable n
    { M.tables n with numEntriesCopied := (M.tables n).numEntriesCopied + numCopied }

/-- The table that {lit}`startCopy` has made. -/
def grow (M : Memory K) (scale : Nat) (minScale : 4 ≤ scale) : Memory K :=
  { M.setTable (M.last + 1) (.new scale minScale) with last := M.last + 1 }

/-- The first table is unlinked. -/
def unlink (M : Memory K) : Memory K :=
  { M with impl := M.impl + 1 }

/-- Notes a call at the step that decides its answer. -/
def note (M : Memory K) (c : Call K) (answer : Word) : Memory K :=
  { M with updates := M.updates ++ [(c, answer)] }

/-- The search for the key of a call begins in a table. -/
def enter (M : Memory K) (hash : K → Word) (c : Call K) (n : Nat) : Pc K :=
  .search c n ((M.tables n).probes (hash c.key))

/-- Where a call begins, with the table that it has read from {lit}`_impl`. -/
def start (M : Memory K) (hash : K → Word) (c : Call K) : Pc K :=
  match c with
  | .compareAndSwap _ _ _ _ => .readNext c M.impl
  | _ => M.enter hash c M.impl

/-- Where a thread goes on after {lit}`copyEntry`. -/
def resume (M : Memory K) (hash : K → Word) (c : Call K) (caller : Caller) (n : Nat) (did : Bool) :
    Pc K :=
  match caller with
  | .help entries numCopied => .help c n entries (numCopied + did.toNat)
  | .call => if did then .addCopied c n else M.enter hash c (n + 1)

end Memory

/-! ## Steps -/

section

variable [DecidableEq K] (hash : K → Word)

/-- One step in {lit}`copyEntry`; the last argument is where the thread is then. -/
inductive CopyNext (M : Memory K) (c : Call K) (caller : Caller) (e : Copying) :
    CopyPc K → Memory K → Pc K → Prop where
  | copied :
      Done (M.value e.source e.entry) →
      CopyNext M c caller e .readValue M (M.resume hash c caller e.source false)
  | noValue :
      M.value e.source e.entry = doesNotExist →
      CopyNext M c caller e .readValue M (.copy c caller e .putCopied)
  | someValue :
      ¬ Done (M.value e.source e.entry) → M.value e.source e.entry ≠ doesNotExist →
      CopyNext M c caller e .readValue M (.copy c caller e .tag)
  | putCopied :
      M.value e.source e.entry = doesNotExist →
      CopyNext M c caller e .putCopied (M.setValue e.source e.entry copiedValue)
        (M.resume hash c caller e.source true)
  | putCopiedFails :
      M.value e.source e.entry ≠ doesNotExist →
      CopyNext M c caller e .putCopied M (.copy c caller e .tag)
  | tagDone :
      Done (M.value e.source e.entry) →
      CopyNext M c caller e .tag M (M.resume hash c caller e.source false)
  | tagTombStone :
      M.value e.source e.entry = tombStone →
      CopyNext M c caller e .tag (M.setValue e.source e.entry (tagValue tombStone))
        (M.resume hash c caller e.source true)
  | tag {entVal : Word} :
      M.value e.source e.entry = entVal → ¬ Done entVal → entVal ≠ tombStone →
      CopyNext M c caller e .tag (M.setValue e.source e.entry (tagValue entVal))
        (.copy c caller e (.readKey entVal))
  | readKey {entVal : Word} {k : K} :
      M.key e.source e.entry = some k →
      CopyNext M c caller e (.readKey entVal) M
        (.copy c caller e (.search entVal k ((M.tables e.target).probes (hash k))))
  | searchOther {entVal : Word} {k k' : K} {j : Nat} {rest : List Nat} :
      M.key e.target j = some k' → k' ≠ k →
      CopyNext M c caller e (.search entVal k (j :: rest)) M
        (.copy c caller e (.search entVal k rest))
  | searchFound {entVal : Word} {k : K} {j : Nat} {rest : List Nat} :
      M.key e.target j = some k →
      CopyNext M c caller e (.search entVal k (j :: rest)) M
        (.copy c caller e (.putValue entVal k j))
  | searchEmpty {entVal : Word} {k : K} {j : Nat} {rest : List Nat} :
      M.key e.target j = none →
      CopyNext M c caller e (.search entVal k (j :: rest)) M
        (.copy c caller e (.putKey entVal k j))
  | searchFull {entVal : Word} {k : K} :
      CopyNext M c caller e (.search entVal k []) M (.copy c caller e (.full entVal k))
  | fullNext {entVal : Word} {k : K} :
      e.target < M.last →
      CopyNext M c caller e (.full entVal k) M
        (.copy c caller { e with target := e.target + 1 } .readValue)
  | fullLast {entVal : Word} {k : K} :
      e.target = M.last →
      CopyNext M c caller e (.full entVal k) M (.copy c caller e (.startCopy entVal k))
  | startCopy {entVal : Word} {k : K} {scale : Nat} (minScale : 4 ≤ scale) :
      e.target = M.last →
      scale = (M.tables e.target).scale ∨ scale = (M.tables e.target).scale + 1 →
      CopyNext M c caller e (.startCopy entVal k) (M.grow scale minScale)
        (.copy c caller { e with target := e.target + 1 } .readValue)
  | startCopyFails {entVal : Word} {k : K} :
      e.target < M.last →
      CopyNext M c caller e (.startCopy entVal k) M
        (.copy c caller { e with target := e.target + 1 } .readValue)
  | putKey {entVal : Word} {k : K} {j : Nat} :
      M.key e.target j = none →
      CopyNext M c caller e (.putKey entVal k j) (M.setKey e.target j k)
        (.copy c caller e (.putValue entVal k j))
  | putKeyFails {entVal : Word} {k : K} {j : Nat} :
      M.key e.target j ≠ none →
      CopyNext M c caller e (.putKey entVal k j) M (.copy c caller e .readValue)
  | putValue {entVal : Word} {k : K} {j : Nat} :
      M.value e.target j = doesNotExist →
      CopyNext M c caller e (.putValue entVal k j) (M.setValue e.target j (stripTag entVal))
        (.copy c caller e (.finish true))
  | putValueCopied {entVal : Word} {k : K} {j : Nat} :
      M.value e.target j = copiedValue → e.target < M.last →
      CopyNext M c caller e (.putValue entVal k j) M
        (.copy c caller { e with target := e.target + 1 } .readValue)
  | putValueFails {entVal : Word} {k : K} {j : Nat} :
      M.value e.target j ≠ doesNotExist → M.value e.target j ≠ copiedValue →
      CopyNext M c caller e (.putValue entVal k j) M (.copy c caller e (.finish false))
  | finish {did : Bool} :
      CopyNext M c caller e (.finish did) (M.setValue e.source e.entry copiedValue)
        (M.resume hash c caller e.source did)

/-- One step of a thread: where it is, and the memory and where it is then. -/
inductive Next (M : Memory K) : Pc K → Memory K → Pc K → Prop where
  | noNext {c : Call K} {n : Nat} :
      n = M.last → Next M (.readNext c n) M (M.enter hash c n)
  | hasNext {c : Call K} {n : Nat} :
      n < M.last → Next M (.readNext c n) M (.readNumCopied c n)
  | allCopied {c : Call K} {n : Nat} :
      (M.tables n).numEntriesCopied = (M.tables n).size →
      Next M (.readNumCopied c n) M (.unlink c n)
  | someLeft {c : Call K} {n : Nat} :
      (M.tables n).numEntriesCopied ≠ (M.tables n).size →
      Next M (.readNumCopied c n) M (.chooseChunk c n)
  | chunk {c : Call K} {n x : Nat} :
      entriesPerCopyChunk ∣ x →
      Next M (.chooseChunk c n) M
        (.help c n ((List.range entriesPerCopyChunk).map fun i => x % (M.tables n).size + i) 0)
  | panic {c : Call K} {n : Nat} :
      Next M (.chooseChunk c n) M (.help c n (List.range (M.tables n).size) 0)
  | help {c : Call K} {n i : Nat} {entries : List Nat} {numCopied : Nat} :
      Next M (.help c n (i :: entries) numCopied) M
        (.copy c (.help entries numCopied) ⟨n, i, n + 1⟩ .readValue)
  | noneCopied {c : Call K} {n : Nat} :
      Next M (.help c n [] 0) M (M.enter hash c n)
  | someCopied {c : Call K} {n numCopied : Nat} :
      (M.tables n).numEntriesCopied + (numCopied + 1) ≠ (M.tables n).size →
      Next M (.help c n [] (numCopied + 1)) (M.addCopied n (numCopied + 1)) (M.enter hash c n)
  | lastCopied {c : Call K} {n numCopied : Nat} :
      (M.tables n).numEntriesCopied + (numCopied + 1) = (M.tables n).size →
      Next M (.help c n [] (numCopied + 1)) (M.addCopied n (numCopied + 1)) (.unlink c n)
  | unlink {c : Call K} {n : Nat} :
      M.impl = n → Next M (.unlink c n) M.unlink (M.enter hash c (n + 1))
  | unlinkFails {c : Call K} {n : Nat} :
      M.impl ≠ n → Next M (.unlink c n) M (M.enter hash c n)
  | searchOther {c : Call K} {k' : K} {n j : Nat} {rest : List Nat} :
      M.key n j = some k' → k' ≠ c.key → Next M (.search c n (j :: rest)) M (.search c n rest)
  | searchFound {c : Call K} {n j : Nat} {rest : List Nat} :
      M.key n j = some c.key → Next M (.search c n (j :: rest)) M (.readValue c n j)
  | searchEmpty {c : Call K} {n j : Nat} {rest : List Nat} :
      M.key n j = none → c.PutsKey → Next M (.search c n (j :: rest)) M (.putKey c n j)
  | searchAbsent {c : Call K} {n j : Nat} {rest : List Nat} :
      M.key n j = none → ¬ c.PutsKey →
      Next M (.search c n (j :: rest)) M (.returns c doesNotExist)
  | searchFull {c : Call K} {n : Nat} :
      Next M (.search c n []) M (.full c n)
  | fullNext {c : Call K} {n : Nat} :
      n < M.last → Next M (.full c n) M (M.enter hash c (n + 1))
  | fullAbsent {c : Call K} {n : Nat} :
      n = M.last → c.swap = none → Next M (.full c n) M (.returns c doesNotExist)
  | fullLast {c : Call K} {n : Nat} :
      n = M.last → c.swap ≠ none → Next M (.full c n) M (.startCopy c n)
  | startCopy {c : Call K} {n scale : Nat} (minScale : 4 ≤ scale) :
      n = M.last → scale = (M.tables n).scale ∨ scale = (M.tables n).scale + 1 →
      Next M (.startCopy c n) (M.grow scale minScale) ((M.grow scale minScale).enter hash c (n + 1))
  | startCopyFails {c : Call K} {n : Nat} :
      n < M.last → Next M (.startCopy c n) M (M.enter hash c (n + 1))
  | putKey {c : Call K} {n i : Nat} :
      M.key n i = none → Next M (.putKey c n i) (M.setKey n i c.key) (.readValue c n i)
  | putKeyFails {c : Call K} {n i : Nat} :
      M.key n i ≠ none → Next M (.putKey c n i) M (M.enter hash c n)
  | valueDone {c : Call K} {n i : Nat} :
      Done (M.value n i) → Next M (.readValue c n i) M (M.enter hash c (n + 1))
  | valueTagged {c : Call K} {n i : Nat} :
      ¬ Done (M.value n i) → isTagged (M.value n i) →
      Next M (.readValue c n i) M (.copy c .call ⟨n, i, n + 1⟩ .readValue)
  | keepValue {c : Call K} {n i : Nat} :
      ¬ isTagged (M.value n i) → c.written (M.value n i) = none →
      Next M (.readValue c n i) M (.returns c (oldValue (M.value n i)))
  | swapValue {c : Call K} {n i : Nat} {newVal : Word} :
      ¬ isTagged (M.value n i) → c.written (M.value n i) = some newVal →
      Next M (.readValue c n i) M (.putValue c n i (M.value n i) newVal)
  | putValue {c : Call K} {n i : Nat} {entVal newVal : Word} :
      M.value n i = entVal →
      Next M (.putValue c n i entVal newVal)
        ((M.setValue n i newVal).note c (oldValue entVal)) .idle
  | putValueFails {c : Call K} {n i : Nat} {entVal newVal : Word} :
      M.value n i ≠ entVal → Next M (.putValue c n i entVal newVal) M (M.enter hash c n)
  | copy {c : Call K} {caller : Caller} {e : Copying} {p : CopyPc K} {M' : Memory K} {p' : Pc K} :
      CopyNext hash M c caller e p M' p' → Next M (.copy c caller e p) M' p'
  | addCopied {c : Call K} {n : Nat} :
      Next M (.addCopied c n) (M.addCopied n 1) (M.enter hash c (n + 1))

end

/-- A call that has changed no value: its answer, and the numbers of changes that had been noted
when it began and when it returned. -/
structure Answered (K : Type) where
  call : Call K
  answer : Word
  since : Nat
  till : Nat

end SharedTables

open SharedTables

/-- The memory, where the threads are and how many changes had been noted when their calls began. -/
structure SharedTables (K θ : Type) where
  memory : Memory K := {}
  pc : θ → Pc K := fun _ => .idle
  since : θ → Nat := fun _ => 0
  answered : List (Answered K) := []

namespace SharedTables

variable {K θ : Type} [DecidableEq K] [DecidableEq θ]

/-- A call begins, or a thread takes its next step. -/
inductive Action (K θ : Type) where
  | call (i : θ) (c : Call K)
  | next (i : θ)

/-- A thread makes one of the calls, takes a step of its call, or returns from it. -/
inductive Step (hash : K → Word) (calls : Set (Call K)) (s : SharedTables K θ) :
    Action K θ → SharedTables K θ → Prop where
  | call {i : θ} {c : Call K} :
      s.pc i = .idle → c ∈ calls →
      Step hash calls s (.call i c)
        { s with
          pc := Function.update s.pc i (s.memory.start hash c)
          since := Function.update s.since i s.memory.updates.length }
  | next {i : θ} {M' : Memory K} {p' : Pc K} :
      Next hash s.memory (s.pc i) M' p' →
      Step hash calls s (.next i) { s with memory := M', pc := Function.update s.pc i p' }
  | returns {i : θ} {c : Call K} {answer : Word} :
      s.pc i = .returns c answer →
      Step hash calls s (.next i)
        { s with
          pc := Function.update s.pc i .idle
          answered := s.answered ++ [⟨c, answer, s.since i, s.memory.updates.length⟩] }

/-- Threads that make some calls, from an empty hash table on. -/
def system (θ : Type) [DecidableEq θ] (hash : K → Word) (calls : Set (Call K)) :
    TransitionSystem (SharedTables K θ) (Action K θ) where
  init s := s = {}
  step := Step hash calls

end SharedTables

end Lockfree
end OFlux
