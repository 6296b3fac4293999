import OFlux.Lockfree.HashTableCopies

/-!
# The threads on the growing hash table

What a thread relies on at each point of its calls, and what one of its steps keeps.  A thread that
finds an empty entry in a table that has been unlinked meanwhile looks at the past: its key did not
exist when the table was unlinked.

Main results:

- Theorem {lit}`Facts.later`: what one thread relies on survives the steps of the others.
- Theorem {lit}`CopyNext.stepped`: what a step in {lit}`copyEntry` keeps.
- Theorem {lit}`Next.stepped`: what a step of a thread keeps, if the counts of the copied entries
  are right.
-/

namespace OFlux
namespace Lockfree

open Library HashTableConstants
open Tables (callMap Keeps)
open Implementation (Fits Storable)

/-! ## Calls on a map -/

section

variable {K : Type} [DecidableEq K]

/-- The machine of a map. -/
def mapMachine (K : Type) [DecidableEq K] : Machine (K → Word) (Call K) Word :=
  .ofNext (· = fun _ => doesNotExist) callMap

namespace Call

variable {c : Call K} {m : K → Word} {expectedVal newVal entVal : Word}

/-- A look-up leaves the map as it is. -/
theorem callMap_of_get (h : c.swap = none) (m : K → Word) : callMap m c = (m c.key, m) := by
  cases c with
  | get k => rfl
  | remove k => cases h
  | compareAndSwap k expectedVal newVal accepted => cases h

/-- A swap changes its own key, when the expectation fits. -/
theorem callMap_of_swap (h : c.swap = some (expectedVal, newVal)) (m : K → Word) :
    callMap m c = (m c.key,
      if Fits expectedVal (m c.key) then Function.update m c.key newVal else m) := by
  cases c with
  | get k => cases h
  | remove k =>
      cases h
      have hfits : Fits CasExpect.whatever (m k) := Or.inl rfl
      show (m k, _) = (m k, if Fits CasExpect.whatever (m k) then _ else _)
      rw [if_pos hfits]
      rfl
  | compareAndSwap k expectedVal newVal accepted =>
      cases h
      rfl

omit [DecidableEq K] in
/-- The words of an allowed swap. -/
theorem storable_of_swap (hc : Keeps c) (h : c.swap = some (expectedVal, newVal)) :
    expectedVal ≠ tombStone ∧ Storable newVal := by
  cases c with
  | get k => cases h
  | remove k =>
      cases h
      exact ⟨by decide, Or.inl rfl⟩
  | compareAndSwap k expectedVal newVal accepted =>
      cases h
      exact ⟨hc.1, Or.inr ⟨accepted.1, accepted.2.2, hc.2⟩⟩

/-- A call that does not put its key into an empty entry changes nothing. -/
theorem callMap_of_not_putsKey (hc : ¬ c.PutsKey) (hm : m c.key = doesNotExist) :
    callMap m c = (doesNotExist, m) := by
  cases hswap : c.swap with
  | none => rw [callMap_of_get hswap, hm]
  | some p =>
      obtain ⟨expectedVal, newVal⟩ := p
      rw [callMap_of_swap hswap, hm]
      split
      next hfits =>
        have hnull : newVal = doesNotExist := by
          by_contra hnew
          refine hc ⟨(expectedVal, newVal), hswap, ?_, hnew⟩
          rintro ⟨hne, hwhatever⟩
          rcases hfits with h | h | ⟨h, -⟩ | ⟨-, h⟩
          · exact hwhatever h
          · exact hwhatever h
          · exact h rfl
          · exact hne h
        rw [hnull, ← hm, Function.update_eq_self]
      next => rfl

omit [DecidableEq K] in
/-- A look-up writes nothing. -/
theorem written_of_get (h : c.swap = none) : c.written entVal = none := by
  unfold written
  rw [h]

omit [DecidableEq K] in
/-- What a call writes, if its expected value fits. -/
theorem written_of_swap (hc : Keeps c) (h : c.swap = some (expectedVal, newVal)) :
    c.written entVal =
      if Fits expectedVal (oldValue entVal) then
        if oldValue entVal = newVal then none
        else some (if newVal = doesNotExist then tombStone else newVal)
      else none := by
  obtain ⟨he, hn⟩ := storable_of_swap hc h
  have hsame : (newVal = doesNotExist ∧ ¬ (entVal ≠ tombStone ∧ entVal ≠ doesNotExist)) ∨
      entVal = newVal ↔ oldValue entVal = newVal := by
    unfold oldValue
    by_cases htomb : entVal = tombStone
    · rw [if_pos htomb]
      constructor
      · rintro (⟨rfl, -⟩ | rfl)
        · rfl
        · exact absurd (hn.oldValue_eq.symm.trans (if_pos htomb)) (htomb ▸ by decide)
      · rintro rfl
        exact Or.inl ⟨rfl, fun hold => hold.1 htomb⟩
    · rw [if_neg htomb]
      refine ⟨?_, Or.inr⟩
      rintro (⟨rfl, hnot⟩ | heq)
      · exact not_ne_iff.mp fun hnull => hnot ⟨htomb, hnull⟩
      · exact heq
  unfold written
  rw [h]
  dsimp only
  by_cases hfits : Fits expectedVal (oldValue entVal)
  · rw [if_neg ((Implementation.fits_oldValue_iff he).mp hfits), if_pos hfits]
    simp only [hsame]
  · rw [if_pos (not_not.mp (mt (Implementation.fits_oldValue_iff he).mpr hfits)), if_neg hfits]

/-- A call that writes nothing over a value changes nothing. -/
theorem callMap_of_written_eq_none (hc : Keeps c) (h : c.written entVal = none)
    (hm : m c.key = oldValue entVal) : callMap m c = (oldValue entVal, m) := by
  cases hswap : c.swap with
  | none => rw [callMap_of_get hswap, hm]
  | some p =>
      obtain ⟨expectedVal, newVal⟩ := p
      rw [written_of_swap hc hswap] at h
      rw [callMap_of_swap hswap, hm]
      by_cases hfits : Fits expectedVal (oldValue entVal)
      · rw [if_pos hfits] at h ⊢
        have hold : oldValue entVal = newVal := by
          by_contra hne
          rw [if_neg hne] at h
          cases h
        rw [← hold, ← hm, Function.update_eq_self]
      · rw [if_neg hfits]

omit [DecidableEq K] in
/-- What a call writes over a value is its new value. -/
theorem exists_swap_of_written (hc : Keeps c) (h : c.written entVal = some newVal) :
    ∃ expectedVal new, c.swap = some (expectedVal, new) ∧ Fits expectedVal (oldValue entVal) ∧
      newVal = if new = doesNotExist then tombStone else new := by
  cases hswap : c.swap with
  | none =>
      rw [written_of_get hswap] at h
      cases h
  | some p =>
      obtain ⟨expectedVal, new⟩ := p
      rw [written_of_swap hc hswap] at h
      by_cases hfits : Fits expectedVal (oldValue entVal)
      · rw [if_pos hfits] at h
        by_cases hold : oldValue entVal = new
        · rw [if_pos hold] at h
          cases h
        · rw [if_neg hold] at h
          exact ⟨expectedVal, new, rfl, hfits, (Option.some.inj h).symm⟩
      · rw [if_neg hfits] at h
        cases h

/-- Where a call writes, the map gets what it writes. -/
theorem callMap_of_written (hc : Keeps c) (h : c.written entVal = some newVal)
    (hm : m c.key = oldValue entVal) :
    callMap m c = (oldValue entVal, Function.update m c.key (oldValue newVal)) := by
  obtain ⟨expectedVal, new, hswap, hfits, rfl⟩ := exists_swap_of_written hc h
  rw [callMap_of_swap hswap, hm, if_pos hfits, (storable_of_swap hc hswap).2.written.2.2]

omit [DecidableEq K] in
/-- What a call writes is a value without a tag. -/
theorem cell_of_written (hc : Keeps c) (h : c.written entVal = some newVal) :
    Cell newVal ∧ ¬ isTagged newVal ∧ newVal ≠ doesNotExist := by
  obtain ⟨expectedVal, new, hswap, -, rfl⟩ := exists_swap_of_written hc h
  have hn := (storable_of_swap hc hswap).2
  by_cases hnull : new = doesNotExist
  · rw [if_pos hnull]
    exact ⟨.tombStone, by decide, by decide⟩
  · rw [if_neg hnull]
    obtain ⟨huntagged, htomb, hstrip⟩ := hn.resolve_left hnull
    exact ⟨.value ⟨huntagged, hnull, htomb, hstrip⟩, huntagged, hnull⟩

end Call

end

namespace SharedTables

variable {K : Type} [DecidableEq K]

/-! ## What later memories keep -/

namespace Memory

variable (hash : K → Word) (M M' : Memory K)

/-- The tables stand for the map that the noted calls leave. -/
def Represents : Prop :=
  ∃ m, (mapMachine K).Trace (fun _ => doesNotExist) M.updates m ∧ M.Contents hash m

/-- Since some number of changes the map has had a property. -/
def Seen (since : Nat) (P : (K → Word) → Prop) : Prop :=
  (mapMachine K).During (fun _ => doesNotExist) M.updates since M.updates.length P

/-- What the steps of all threads keep. -/
structure Later : Prop where
  last : M.last ≤ M'.last
  impl : M.impl ≤ M'.impl
  scale : ∀ {n}, n ≤ M.last → (M'.tables n).scale = (M.tables n).scale
  key : ∀ {n i k}, M.key n i = some k → M'.key n i = some k
  value : ∀ {n i}, M.value n i ≠ doesNotExist → M'.value n i ≠ doesNotExist
  done : ∀ {n i}, Done (M.value n i) → M'.value n i = M.value n i
  tagged : ∀ {n i k w}, M.key n i = some k → Copiable w → M.value n i = tagValue w →
    M'.value n i = tagValue w ∨ M'.value n i = copiedValue ∧ M.Written hash n k
  updates : ∃ more, M'.updates = M.updates ++ more
  vacant : ∀ {n k since}, M.impl ≤ n → n < M'.impl → M'.Vacant hash n k →
    since ≤ M.updates.length → M.Seen since fun m => m k = doesNotExist

end Memory

section

variable {hash : K → Word} {M M' : Memory K} {n i m : Nat} {k : K}

/-- What holds of the present contents was seen. -/
theorem Memory.Represents.seen (h : M.Represents hash) {since : Nat} {P : (K → Word) → Prop}
    (hsince : since ≤ M.updates.length) (hP : ∀ m, M.Contents hash m → P m) : M.Seen since P := by
  obtain ⟨m, htrace, hm⟩ := h
  exact htrace.during (hP m hm) hsince

namespace Memory.Later

theorem refl (hash : K → Word) (M : Memory K) : Later hash M M where
  last := le_rfl
  impl := le_rfl
  scale _ := rfl
  key h := h
  value h := h
  done _ := rfl
  tagged _ _ h := Or.inl h
  updates := ⟨[], (List.append_nil _).symm⟩
  vacant hn hlt := absurd hn (Nat.not_le.mpr hlt)

/-- A full table stays full. -/
theorem full (h : Later hash M M') (hn : n ≤ M.last) (hfull : M.Full hash n k) :
    M'.Full hash n k :=
  hfull.mono (fun _ _ => h.key) (h.scale hn)

/-- What a search passed it still passes. -/
theorem passes (h : Later hash M M') (hn : n ≤ M.last) (hpasses : M.Passes hash n k) :
    M'.Passes hash n k := by
  refine hpasses.imp (h.full hn) ?_
  rintro ⟨i, hi, hdone⟩
  exact ⟨i, h.key hi, by rwa [h.done hdone]⟩

/-- Room for a key was there before. -/
theorem vacant_of_vacant (h : Later hash M M') (hM' : Shape hash M') (hn : n ≤ M.last)
    (hvacant : M'.Vacant hash n k) : M.Vacant hash n k :=
  hvacant.of_mono (fun _ _ => h.key) (h.scale hn) (hM'.placed n)

/-- Full tables in between stay full. -/
theorem fullBetween (h : Later hash M M') (hm : m ≤ M.last)
    (hfull : M.FullBetween hash n m k) : M'.FullBetween hash n m k :=
  fun j hj hjm => h.full (hjm.le.trans hm) (hfull j hj hjm)

/-- A key written in a later table stays written. -/
theorem written (h : Later hash M M') (hM : Shape hash M) (hwritten : M.Written hash n k) :
    M'.Written hash n k := by
  obtain ⟨m, i, hlt, hfull, hi, hvalue⟩ := hwritten
  exact ⟨m, i, hlt, h.fullBetween (hM.le_last_of_key hi) hfull, h.key hi, h.value hvalue⟩

/-- The notes only grow. -/
theorem length_le (h : Later hash M M') : M.updates.length ≤ M'.updates.length := by
  obtain ⟨more, hmore⟩ := h.updates
  rw [hmore, List.length_append]
  exact Nat.le_add_right _ _

/-- What was seen stays seen. -/
theorem seen (h : Later hash M M') {since : Nat} {P : (K → Word) → Prop}
    (hseen : M.Seen since P) : M'.Seen since P := by
  have hlen := h.length_le
  obtain ⟨more, hmore⟩ := h.updates
  unfold Memory.Seen at *
  rw [hmore] at hlen ⊢
  exact hseen.append more hlen le_rfl

/-- Claiming an empty entry is a later memory. -/
theorem setKey (hempty : M.key n i = none) : Later hash M (M.setKey n i k) where
  last := le_rfl
  impl := le_rfl
  scale _ := scale_setKey M n i k _
  key h := Shape.mono_setKey hempty _ _ _ h
  value h := by rwa [value_setKey]
  done _ := by rw [value_setKey]
  tagged _ _ h := Or.inl (by rwa [value_setKey])
  updates := ⟨[], (List.append_nil _).symm⟩
  vacant hn hlt := absurd hn (Nat.not_le.mpr hlt)

/-- A value that is not null is written, and not over that of a copied entry. -/
theorem setValue {v : Word} (hdone : ¬ Done (M.value n i)) (hv : v ≠ doesNotExist)
    (htagged : ∀ k w, M.key n i = some k → Copiable w → M.value n i = tagValue w →
      v = copiedValue ∧ M.Written hash n k) :
    Later hash M (M.setValue n i v) where
  last := le_rfl
  impl := le_rfl
  scale _ := scale_setValue M n i v _
  key h := by rwa [key_setValue]
  value h := by
    rw [value_setValue]
    split
    · exact hv
    · exact h
  done h := by
    rw [value_setValue, if_neg]
    rintro ⟨rfl, rfl⟩
    exact hdone h
  tagged {m j k w} hj hw h := by
    rw [value_setValue]
    split
    next hself =>
      obtain ⟨rfl, rfl⟩ := hself
      exact Or.inr (htagged k w hj hw h)
    next => exact Or.inl h
  updates := ⟨[], (List.append_nil _).symm⟩
  vacant hn hlt := absurd hn (Nat.not_le.mpr hlt)

/-- Noting a call is a later memory. -/
theorem note (h : Later hash M M') (c : Call K) (answer : Word) :
    Later hash M (M'.note c answer) where
  last := h.last
  impl := h.impl
  scale := h.scale
  key := h.key
  value := h.value
  done := h.done
  tagged := h.tagged
  updates := by
    obtain ⟨more, hmore⟩ := h.updates
    refine ⟨more ++ [(c, answer)], ?_⟩
    rw [Memory.note, hmore, List.append_assoc]
  vacant := h.vacant

/-- Counting copied entries is a later memory. -/
theorem addCopied (M : Memory K) (n numCopied : Nat) :
    Later hash M (M.addCopied n numCopied) := by
  have hsame := sameEntries_addCopied M n numCopied
  exact
    { last := le_rfl
      impl := le_rfl
      scale := fun _ => hsame.scale _
      key := fun h => by rwa [hsame.key]
      value := fun h => by rwa [hsame.value]
      done := fun _ => by rw [hsame.value]
      tagged := fun _ _ h => Or.inl (by rwa [hsame.value])
      updates := ⟨[], (List.append_nil _).symm⟩
      vacant := fun hn hlt => absurd hn (Nat.not_le.mpr hlt) }

/-- Making the next table is a later memory. -/
theorem grow (hM : Shape hash M) {scale : Nat} {minScale : 4 ≤ scale} :
    Later hash M (M.grow scale minScale) where
  last := Nat.le_succ _
  impl := le_rfl
  scale hn := Shape.scale_grow hn
  key h := by rwa [hM.key_grow]
  value h := by rwa [hM.value_grow]
  done _ := by rw [hM.value_grow]
  tagged _ _ h := Or.inl (by rwa [hM.value_grow])
  updates := ⟨[], (List.append_nil _).symm⟩
  vacant hn hlt := absurd hn (Nat.not_le.mpr hlt)

/-- The keys that a table with copied entries does not pass on do not exist when it is unlinked. -/
theorem unlink (hrepresents : M.Represents hash) : Later hash M M.unlink where
  last := le_rfl
  impl := Nat.le_succ _
  scale _ := rfl
  key h := h
  value h := h
  done _ := rfl
  tagged _ _ h := Or.inl h
  updates := ⟨[], (List.append_nil _).symm⟩
  vacant {n k since} hn hlt hvacant hsince := by
    obtain rfl : n = M.impl := Nat.le_antisymm (Nat.le_of_lt_succ hlt) hn
    exact hrepresents.seen hsince fun m hm =>
      (hm k M.impl le_rfl fun j hj hji => absurd hj (Nat.not_le.mpr hji)).1 hvacant

end Memory.Later

end

/-! ## What a thread relies on -/

section

variable (hash : K → Word) (M : Memory K)

/-- A call is at a table: the tables before, unless they are unlinked, pass its key on.  If it is
behind with that, its key did not exist when a table was unlinked in which the search for it ends at
an empty entry. -/
structure At (since : Nat) (c : Call K) (n : Nat) : Prop where
  keeps : Keeps c
  le_last : n ≤ M.last
  since_le : since ≤ M.updates.length
  passed : ∀ {j}, M.impl ≤ j → j < n → M.Passes hash j c.key
  seen : ∀ {j}, n ≤ j → j < M.impl → M.Vacant hash j c.key →
    M.Seen since fun m => m c.key = doesNotExist

/-- The search for a key has met only other keys, and the rest of it is left. -/
def Searched (n : Nat) (k : K) (rest : List Nat) : Prop :=
  ∃ front, M.probes hash n k = front ++ rest ∧
    ∀ i ∈ front, M.key n i ≠ none ∧ M.key n i ≠ some k

/-- The table into which an entry is to be put comes later, and if there is something to copy, the
tables between are full. -/
structure Route (e : Copying) : Prop where
  lt : e.source < e.target
  le_last : e.target ≤ M.last
  full : Done (M.value e.source e.entry) ∨ ∀ j, e.source < j → j < e.target →
    ∃ k, M.key e.source e.entry = some k ∧ M.Full hash j k

/-- The value of the entry has been marked. -/
structure Taken (e : Copying) (w : Word) (k : K) : Prop where
  lt : e.source < e.target
  le_last : e.target ≤ M.last
  full : M.FullBetween hash e.source e.target k
  key : M.key e.source e.entry = some k
  copiable : Copiable w
  marked : M.value e.source e.entry = tagValue w ∨
    M.value e.source e.entry = copiedValue ∧ M.Written hash e.source k

/-- What a copy knows of the call that asked for it. -/
def CallerFacts (c : Call K) (e : Copying) : Caller → Prop
  | .call => M.key e.source e.entry = some c.key
  | .help entries _ => e.source ≤ M.impl ∧ e.entry < M.size e.source ∧
      ∀ i ∈ entries, i < M.size e.source

/-- How many entries {lit}`helpCopy` has copied before. -/
def Caller.numCopied : Caller → Nat
  | .call => 0
  | .help _ numCopied => numCopied

/-- What a copy knows at each of its steps. -/
def CopyFacts (e : Copying) : CopyPc K → Prop
  | .readValue | .putCopied => Route hash M e
  | .tag => Route hash M e ∧ M.value e.source e.entry ≠ doesNotExist
  | .readKey entVal => ∃ k, Taken hash M e (stripTag entVal) k
  | .search entVal k rest => Taken hash M e (stripTag entVal) k ∧ Searched hash M e.target k rest
  | .full entVal k | .startCopy entVal k =>
      Taken hash M e (stripTag entVal) k ∧ M.Full hash e.target k
  | .putKey entVal k j =>
      Taken hash M e (stripTag entVal) k ∧ ∃ rest, Searched hash M e.target k (j :: rest)
  | .putValue entVal k j => Taken hash M e (stripTag entVal) k ∧ M.key e.target j = some k
  | .finish _ => ∃ w k, Taken hash M e w k ∧ M.Written hash e.source k

/-- What a thread knows at each of its steps. -/
def Facts (since : Nat) : Pc K → Prop
  | .idle => True
  | .readNext c n => At hash M since c n ∧ n ≤ M.impl
  | .readNumCopied c n | .chooseChunk c n =>
      At hash M since c n ∧ n ≤ M.impl ∧ n < M.last
  | .help c n entries _ =>
      At hash M since c n ∧ n ≤ M.impl ∧ n < M.last ∧ ∀ i ∈ entries, i < M.size n
  | .unlink c n => At hash M since c n ∧ n < M.last ∧ Shape.AllCopied M n
  | .search c n rest => At hash M since c n ∧ Searched hash M n c.key rest
  | .full c n | .startCopy c n => At hash M since c n ∧ M.Full hash n c.key
  | .putKey c n i => At hash M since c n ∧ ∃ rest, Searched hash M n c.key (i :: rest)
  | .readValue c n i => At hash M since c n ∧ M.key n i = some c.key
  | .putValue c n i entVal newVal =>
      At hash M since c n ∧ M.key n i = some c.key ∧ ¬ isTagged entVal ∧
        c.written entVal = some newVal
  | .copy c caller e p =>
      At hash M since c e.source ∧ CallerFacts M c e caller ∧ CopyFacts hash M e p
  | .addCopied c n => At hash M since c (n + 1)
  | .returns c answer => M.Seen since fun m => callMap m c = (answer, m)

end

/-! ## What the steps of the others leave alone -/

section

variable {hash : K → Word} {M M' : Memory K} {since n : Nat} {c : Call K} {k : K} {e : Copying}

/-- A call stays where it is while others go on. -/
theorem At.later (h : At hash M since c n) (hM' : Shape hash M') (hM : Shape hash M)
    (hlater : Memory.Later hash M M') : At hash M' since c n where
  keeps := h.keeps
  le_last := h.le_last.trans hlater.last
  since_le := h.since_le.trans hlater.length_le
  passed {j} hj hjn :=
    hlater.passes (hjn.le.trans h.le_last) (h.passed (hlater.impl.trans hj) hjn)
  seen {j} hnj hj hvacant := by
    refine hlater.seen ?_
    by_cases hjM : j < M.impl
    · exact h.seen hnj hjM (hlater.vacant_of_vacant hM' (hjM.le.trans hM.impl_le) hvacant)
    · exact hlater.vacant (Nat.le_of_not_lt hjM) hj hvacant h.since_le

/-- What a search has passed stays passed. -/
theorem Searched.later {rest : List Nat} (h : Searched hash M n k rest) (hn : n ≤ M.last)
    (hlater : Memory.Later hash M M') : Searched hash M' n k rest := by
  obtain ⟨front, hfront, hothers⟩ := h
  refine ⟨front, (Memory.probes_of_scale (hlater.scale hn) hash k).trans hfront, fun i hi => ?_⟩
  obtain ⟨hnone, hne⟩ := hothers i hi
  obtain ⟨k', hk'⟩ := Option.ne_none_iff_exists'.mp hnone
  rw [hk'] at hne
  rw [hlater.key hk']
  exact ⟨Option.some_ne_none k', hne⟩

/-- The copies of an entry are first to be put into the next table. -/
theorem Route.first {i : Nat} (hlast : n < M.last) : Route hash M ⟨n, i, n + 1⟩ where
  lt := Nat.lt_succ_self n
  le_last := hlast
  full := Or.inr fun _ hj hjt => absurd hj (Nat.not_lt.mpr (Nat.le_of_lt_succ hjt))

/-- A copy stays on its way. -/
theorem Route.later (h : Route hash M e) (hlater : Memory.Later hash M M') :
    Route hash M' e where
  lt := h.lt
  le_last := h.le_last.trans hlater.last
  full := by
    refine h.full.imp (fun hdone => by rwa [hlater.done hdone]) fun hfull j hj hjt => ?_
    obtain ⟨k, hk, hj'⟩ := hfull j hj hjt
    exact ⟨k, hlater.key hk, hlater.full (hjt.le.trans h.le_last) hj'⟩

/-- A value taken for copying stays taken. -/
theorem Taken.later {w : Word} (h : Taken hash M e w k) (hM : Shape hash M)
    (hlater : Memory.Later hash M M') : Taken hash M' e w k where
  lt := h.lt
  le_last := h.le_last.trans hlater.last
  full := hlater.fullBetween h.le_last h.full
  key := hlater.key h.key
  copiable := h.copiable
  marked := by
    rcases h.marked with htagged | ⟨hcopied, hwritten⟩
    · refine (hlater.tagged h.key h.copiable htagged).imp_right fun hcopied => ?_
      exact ⟨hcopied.1, hlater.written hM hcopied.2⟩
    · rw [hlater.done (hcopied ▸ done_copiedValue)]
      exact Or.inr ⟨hcopied, hlater.written hM hwritten⟩

/-- What a copy knows of its caller stays true. -/
theorem CallerFacts.later {caller : Caller} (h : CallerFacts M c e caller)
    (hsource : e.source ≤ M.last) (hlater : Memory.Later hash M M') :
    CallerFacts M' c e caller := by
  cases caller with
  | call => exact hlater.key h
  | help entries numCopied =>
      obtain ⟨himpl, hentry, hentries⟩ := h
      have hsize := Memory.size_of_scale (hlater.scale hsource)
      exact ⟨himpl.trans hlater.impl, hsize ▸ hentry, hsize ▸ hentries⟩

/-- What a copy knows stays true. -/
theorem CopyFacts.later {p : CopyPc K} (h : CopyFacts hash M e p) (hM : Shape hash M)
    (hlater : Memory.Later hash M M') : CopyFacts hash M' e p := by
  cases p with
  | readValue | putCopied => exact Route.later h hlater
  | tag => exact ⟨h.1.later hlater, hlater.value h.2⟩
  | readKey entVal =>
      obtain ⟨k, hk⟩ := h
      exact ⟨k, hk.later hM hlater⟩
  | search entVal k rest =>
      exact ⟨h.1.later hM hlater, h.2.later h.1.le_last hlater⟩
  | full entVal k | startCopy entVal k =>
      exact ⟨h.1.later hM hlater, hlater.full h.1.le_last h.2⟩
  | putKey entVal k j =>
      obtain ⟨htaken, rest, hrest⟩ := h
      exact ⟨htaken.later hM hlater, rest, hrest.later htaken.le_last hlater⟩
  | putValue entVal k j => exact ⟨h.1.later hM hlater, hlater.key h.2⟩
  | finish did =>
      obtain ⟨w, k, htaken, hwritten⟩ := h
      exact ⟨w, k, htaken.later hM hlater, hlater.written hM hwritten⟩

/-- What one thread relies on survives the steps of the others. -/
theorem Facts.later {p : Pc K} (h : Facts hash M since p) (hM : Shape hash M)
    (hM' : Shape hash M') (hlater : Memory.Later hash M M') : Facts hash M' since p := by
  cases p with
  | idle => trivial
  | readNext c n => exact ⟨h.1.later hM' hM hlater, h.2.trans hlater.impl⟩
  | readNumCopied c n | chooseChunk c n =>
      obtain ⟨hat, himpl, hlast⟩ := h
      exact ⟨hat.later hM' hM hlater, himpl.trans hlater.impl, hlast.trans_le hlater.last⟩
  | help c n entries numCopied =>
      obtain ⟨hat, himpl, hlast, hentries⟩ := h
      exact ⟨hat.later hM' hM hlater, himpl.trans hlater.impl, hlast.trans_le hlater.last,
        Memory.size_of_scale (hlater.scale hat.le_last) ▸ hentries⟩
  | unlink c n =>
      obtain ⟨hat, hlast, hall⟩ := h
      refine ⟨hat.later hM' hM hlater, hlast.trans_le hlater.last, fun i hi => ?_⟩
      have hdone := hall i (Memory.size_of_scale (hlater.scale hat.le_last) ▸ hi)
      rwa [hlater.done hdone]
  | search c n rest => exact ⟨h.1.later hM' hM hlater, h.2.later h.1.le_last hlater⟩
  | full c n | startCopy c n =>
      exact ⟨h.1.later hM' hM hlater, hlater.full h.1.le_last h.2⟩
  | putKey c n i =>
      obtain ⟨hat, rest, hrest⟩ := h
      exact ⟨hat.later hM' hM hlater, rest, hrest.later hat.le_last hlater⟩
  | readValue c n i => exact ⟨h.1.later hM' hM hlater, hlater.key h.2⟩
  | putValue c n i entVal newVal =>
      obtain ⟨hat, hkey, hrest⟩ := h
      exact ⟨hat.later hM' hM hlater, hlater.key hkey, hrest⟩
  | copy c caller e p =>
      obtain ⟨hat, hcaller, hcopy⟩ := h
      exact ⟨hat.later hM' hM hlater, hcaller.later hat.le_last hlater, hcopy.later hM hlater⟩
  | addCopied c n => exact At.later h hM' hM hlater
  | returns c answer => exact hlater.seen h

/-! ## The next table -/

/-- The table passes the key of the call on. -/
theorem At.next (h : At hash M since c n) (hpasses : M.Passes hash n c.key) (hn : n < M.last) :
    At hash M since c (n + 1) where
  keeps := h.keeps
  le_last := hn
  since_le := h.since_le
  passed {j} hj hjn := by
    rcases Nat.lt_succ_iff_lt_or_eq.mp hjn with hjn | rfl
    · exact h.passed hj hjn
    · exact hpasses
  seen hnj := h.seen (Nat.le_of_succ_le hnj)

/-- The facts of a call that enters a table. -/
theorem At.facts_enter (h : At hash M since c n) : Facts hash M since (M.enter hash c n) :=
  ⟨h, [], rfl, fun _ hi => absurd hi List.not_mem_nil⟩

theorem enter_eq (hlater : Memory.Later hash M M') (hn : n ≤ M.last) (c : Call K) :
    M'.enter hash c n = M.enter hash c n :=
  congrArg (Pc.search c n) (Memory.probes_of_scale (hlater.scale hn) hash c.key)

/-- A search that reaches an empty entry ends there. -/
theorem Searched.lookUp {i : Nat} {rest : List Nat} (h : Searched hash M n k (i :: rest))
    (hi : M.key n i = none) : M.lookUp hash n k = some i := by
  obtain ⟨front, hfront, hothers⟩ := h
  exact Probing.lookUp_eq_some_iff.mpr ⟨Or.inl hi, front, rest, hfront, hothers⟩

omit [DecidableEq K] in
/-- A search goes on past another key. -/
theorem Searched.tail {i : Nat} {rest : List Nat} {k' : K} (h : Searched hash M n k (i :: rest))
    (hi : M.key n i = some k') (hne : k' ≠ k) : Searched hash M n k rest := by
  obtain ⟨front, hfront, hothers⟩ := h
  refine ⟨front ++ [i], by rw [hfront, List.append_assoc]; rfl, fun j hj => ?_⟩
  rcases List.mem_append.mp hj with hj | hj
  · exact hothers j hj
  · rw [List.mem_singleton.mp hj, hi]
    exact ⟨Option.some_ne_none k', fun heq => hne (Option.some.inj heq)⟩

/-- A search that has tried all entries found the table full. -/
theorem Searched.full (h : Searched hash M n k []) : M.Full hash n k := by
  obtain ⟨front, hfront, hothers⟩ := h
  refine List.find?_eq_none.mpr fun i hi => ?_
  rw [hfront, List.append_nil] at hi
  simpa using hothers i hi

/-! ## Copying -/

/-- Before the table of the entry that a thread copies, its key has been passed on. -/
theorem At.passed_source {caller : Caller} (h : At hash M since c e.source)
    (hcaller : CallerFacts M c e caller) (hk : M.key e.source e.entry = some k) (j : Nat)
    (hj : M.impl ≤ j) (hjs : j < e.source) : M.Passes hash j k := by
  cases caller with
  | call =>
      obtain rfl : c.key = k := Option.some.inj (hcaller.symm.trans hk)
      exact h.passed hj hjs
  | help entries numCopied => exact absurd (hjs.trans_le hcaller.1) (Nat.not_lt.mpr hj)

omit [DecidableEq K] in
/-- An entry without a key is copied by {lit}`helpCopy` only. -/
theorem CallerFacts.le_impl {caller : Caller} (h : CallerFacts M c e caller)
    (hnone : M.key e.source e.entry = none) : e.source ≤ M.impl := by
  cases caller with
  | call => exact absurd (hnone.symm.trans h) (by simp)
  | help entries numCopied => exact h.1

/-- Once the entry has been copied, the thread goes on. -/
theorem At.facts_resume {caller : Caller} (h : At hash M since c e.source)
    (hcaller : CallerFacts M c e caller) (hlast : e.source < M.last)
    (hdone : Done (M.value e.source e.entry)) (did : Bool) :
    Facts hash M since (M.resume hash c caller e.source did) := by
  cases caller with
  | call =>
      have hnext := h.next (Or.inr ⟨e.entry, hcaller, hdone⟩) hlast
      cases did with
      | false => exact hnext.facts_enter
      | true => exact hnext
  | help entries numCopied => exact ⟨h, hcaller.1, hlast, hcaller.2.2⟩

theorem resume_eq (hlater : Memory.Later hash M M') (hn : n < M.last) (c : Call K)
    (caller : Caller) (did : Bool) :
    M'.resume hash c caller n did = M.resume hash c caller n did := by
  cases caller with
  | call =>
      cases did with
      | false => exact enter_eq hlater hn c
      | true => rfl
  | help entries numCopied => rfl

/-- A taken value is on its way. -/
theorem Taken.route {w : Word} (h : Taken hash M e w k) : Route hash M e where
  lt := h.lt
  le_last := h.le_last
  full := Or.inr fun j hj hjt => ⟨k, h.key, h.full j hj hjt⟩

/-- The search for the key goes on in the next table. -/
theorem Taken.route_next {w : Word} (h : Taken hash M e w k) (hfull : M.Full hash e.target k)
    (hlast : e.target < M.last) : Route hash M { e with target := e.target + 1 } where
  lt := Nat.lt_succ_of_lt h.lt
  le_last := hlast
  full := by
    refine Or.inr fun j hj hjt => ⟨k, h.key, ?_⟩
    rcases Nat.lt_succ_iff_lt_or_eq.mp hjt with hjt | rfl
    · exact h.full j hj hjt
    · exact hfull

/-- The key was written in a later table. -/
theorem Taken.written {w : Word} (h : Taken hash M e w k) {j : Nat}
    (hj : M.key e.target j = some k) (hvalue : M.value e.target j ≠ doesNotExist) :
    M.Written hash e.source k :=
  ⟨e.target, j, h.lt, h.full, hj, hvalue⟩

/-- As long as the table after the full ones has no value of the key, none has been stored. -/
theorem Taken.not_written {w : Word} (h : Taken hash M e w k) (hM : Shape hash M)
    (hnot : ¬ M.Full hash e.target k)
    (hnull : ∀ i, M.key e.target i = some k → M.value e.target i = doesNotExist) :
    ¬ M.Written hash e.source k := by
  rintro ⟨m, i, hlt, hfull, hi, hvalue⟩
  rcases Nat.lt_trichotomy m e.target with hlow | rfl | hhigh
  · exact absurd (h.full m hlt hlow) (hM.not_full_of_key hi)
  · exact absurd (hnull i hi) hvalue
  · exact absurd (hfull e.target h.lt hhigh) hnot

/-- Then the marked value still waits. -/
theorem Taken.waits {w : Word} (h : Taken hash M e w k) (hM : Shape hash M)
    (hnot : ¬ M.Full hash e.target k)
    (hnull : ∀ i, M.key e.target i = some k → M.value e.target i = doesNotExist) :
    M.Waits e.source k w :=
  ⟨e.entry, h.key, h.copiable,
    h.marked.resolve_right fun hcopied => h.not_written hM hnot hnull hcopied.2⟩

/-- What is below the table that gets the key. -/
theorem Taken.below {w : Word} (h : Taken hash M e w k)
    (hpassed : ∀ j, M.impl ≤ j → j < e.source → M.Passes hash j k)
    (hwaits : M.Waits e.source k w) {n' : Nat} (hn' : M.impl ≤ n') (hlt : n' < e.target)
    (hnot : ¬ M.Passes hash n' k) :
    M.FullBetween hash n' e.target k ∧ ∃ w, M.Waits n' k w := by
  rcases Nat.lt_trichotomy n' e.source with hlow | rfl | hhigh
  · exact absurd (hpassed n' hn' hlow) hnot
  · exact ⟨h.full, w, hwaits⟩
  · exact absurd (Or.inl (h.full n' hhigh hlt)) hnot

/-- A copied entry in the table after the full ones has a copied entry before it. -/
theorem Taken.done_of_copied {w : Word} (h : Taken hash M e w k) (hM : Shape hash M) {j : Nat}
    (hj : M.key e.target j = some k) (hvalue : M.value e.target j = copiedValue) :
    Done (M.value e.source e.entry) := by
  rcases h.marked with htagged | ⟨hcopied, -⟩
  · have hwaits : M.Waits e.source k w := ⟨e.entry, h.key, h.copiable, htagged⟩
    have himpl := hM.impl_le_of_key h.key (htagged ▸ h.copiable.not_done_tagValue)
    obtain ⟨-, w', ⟨-, -, hw', -⟩, hval⟩ :=
      hM.above himpl (hM.not_passes_of_waits hwaits) h.lt hj
    rw [hvalue] at hval
    rcases hval with hval | hval
    · exact absurd hval (by decide)
    · exact absurd (hval ▸ done_copiedValue.isTagged) hw'.untagged
  · rw [hcopied]
    exact done_copiedValue

/-! ## One step -/

/-- What one step of a thread keeps. -/
structure Stepped (hash : K → Word) (M M' : Memory K) (since : Nat) (p' : Pc K) : Prop where
  shape : Shape hash M'
  represents : M'.Represents hash
  later : Memory.Later hash M M'
  facts : Facts hash M' since p'

/-- A step that changes no memory only needs its new facts. -/
theorem Stepped.same (hM : Shape hash M) (hrepresents : M.Represents hash) {p' : Pc K}
    (hfacts : Facts hash M since p') : Stepped hash M M since p' :=
  ⟨hM, hrepresents, .refl hash M, hfacts⟩

/-- The tables stand for the same map as before. -/
theorem Memory.Represents.of_contents (h : M.Represents hash) (hupdates : M'.updates = M.updates)
    (hcontents : ∀ m, M.Contents hash m → M'.Contents hash m) : M'.Represents hash := by
  obtain ⟨m, htrace, hm⟩ := h
  exact ⟨m, hupdates ▸ htrace, hcontents m hm⟩

/-- An entry is given up, and the thread goes on after {lit}`copyEntry`. -/
theorem Stepped.finish (hM : Shape hash M) (hrepresents : M.Represents hash)
    (hat : At hash M since c e.source) {caller : Caller} (hcaller : CallerFacts M c e caller)
    (hlast : e.source < M.last) {v : Word} (hv : Done v)
    (hcopied : isTagged (M.value e.source e.entry) → v = copiedValue)
    (hkeyless : M.key e.source e.entry = none →
      M.value e.source e.entry = doesNotExist ∧ v = copiedValue)
    (hgiven : ∀ k, M.key e.source e.entry = some k → Shape.GivenUp hash M e.source e.entry k)
    (did : Bool) :
    Stepped hash M (M.setValue e.source e.entry v) since (M.resume hash c caller e.source did) := by
  have hshape := hM.finish hlast hv
    (fun hnone => ⟨(hkeyless hnone).1, (hkeyless hnone).2, hcaller.le_impl hnone⟩) hgiven
  have hnot : ¬ Done (M.value e.source e.entry) := by
    cases hk : M.key e.source e.entry with
    | none =>
        rw [(hkeyless hk).1]
        exact not_done_doesNotExist
    | some k => exact (hgiven k hk).not_done
  have hlater : Memory.Later hash M (M.setValue e.source e.entry v) := by
    refine .setValue hnot (fun hnull => not_done_doesNotExist (hnull ▸ hv)) ?_
    intro k w hk hw hvalue
    have htagged : isTagged (M.value e.source e.entry) := hvalue ▸ isTagged_tagValue w
    refine ⟨hcopied htagged, ?_⟩
    cases hgiven k hk with
    | noValue hnull =>
        rcases hnull with hnull | hnull <;> rw [hnull] at htagged <;>
          exact absurd htagged (by decide)
    | written _ _ _ hwritten => exact hwritten
  have hdone : Done ((M.setValue e.source e.entry v).value e.source e.entry) := by
    rwa [Memory.value_setValue, if_pos ⟨rfl, rfl⟩]
  have hsame : (M.setValue e.source e.entry v).Represents hash :=
    hrepresents.of_contents rfl fun m hm => hM.contents_finish hv hgiven hm
  refine ⟨hshape, hsame, hlater, ?_⟩
  rw [← resume_eq hlater hlast]
  exact (hat.later hshape hM hlater).facts_resume (hcaller.later hat.le_last hlater) hlast hdone did

/-- Copied entries are counted, and the thread goes on with its search. -/
theorem Stepped.addCopied_enter (hM : Shape hash M) (hrepresents : M.Represents hash) {n' : Nat}
    (hat : At hash M since c n') (n numCopied : Nat) :
    Stepped hash M (M.addCopied n numCopied) since (M.enter hash c n') := by
  have hsame := Memory.sameEntries_addCopied M n numCopied
  have hlater : Memory.Later hash M (M.addCopied n numCopied) := .addCopied M n numCopied
  have hshape := hM.of_sameEntries hsame rfl rfl
  refine ⟨hshape, hrepresents.of_contents rfl fun m hm =>
    Shape.contents_of_sameEntries hsame rfl hm, hlater, ?_⟩
  rw [← enter_eq hlater hat.le_last]
  exact (hat.later hshape hM hlater).facts_enter

/-- A table is made. -/
theorem Stepped.grow (hM : Shape hash M) (hrepresents : M.Represents hash) {p' : Pc K}
    {scale : Nat} {minScale : 4 ≤ scale}
    (hfacts : Memory.Later hash M (M.grow scale minScale) → Shape hash (M.grow scale minScale) →
      Facts hash (M.grow scale minScale) since p') :
    Stepped hash M (M.grow scale minScale) since p' :=
  ⟨hM.grow, hrepresents.of_contents rfl fun _ hm => hM.contents_grow hm, .grow hM,
    hfacts (.grow hM) hM.grow⟩

/-- The first table is unlinked. -/
theorem Stepped.unlink (hM : Shape hash M) (hrepresents : M.Represents hash)
    (hat : At hash M since c M.impl) (hlast : M.impl < M.last)
    (hall : Shape.AllCopied M M.impl) :
    Stepped hash M M.unlink since (M.enter hash c (M.impl + 1)) := by
  have hlater : Memory.Later hash M M.unlink := .unlink hrepresents
  have hshape := hM.unlink hall hlast
  refine ⟨hshape, hrepresents.of_contents rfl fun m hm => hM.contents_unlink hall hm, hlater, ?_⟩
  rw [← enter_eq hlater hlast]
  have hat' := hat.later hshape hM hlater
  refine At.facts_enter
    ⟨hat'.keeps, hlast, hat'.since_le, fun {j} hj hjn => ?_, fun {j} hj => ?_⟩
  · exact absurd hj (Nat.not_le.mpr hjn)
  · exact hat'.seen (Nat.le_of_succ_le hj)

/-- The marking of a value. -/
theorem Stepped.tag (hM : Shape hash M) (hrepresents : M.Represents hash)
    (hat : At hash M since c e.source) {caller : Caller} (hcaller : CallerFacts M c e caller)
    (hroute : Route hash M e) (hnot : ¬ Done (M.value e.source e.entry))
    (htomb : M.value e.source e.entry ≠ tombStone)
    (hnull : M.value e.source e.entry ≠ doesNotExist) :
    Stepped hash M (M.setValue e.source e.entry (tagValue (M.value e.source e.entry))) since
      (.copy c caller e (.readKey (M.value e.source e.entry))) := by
  obtain ⟨k, hk⟩ : ∃ k, M.key e.source e.entry = some k := by
    refine Option.ne_none_iff_exists'.mp fun hnone => ?_
    rcases hM.keyless hnone with h | ⟨h, -⟩
    · exact hnull h
    · exact hnot (h ▸ done_copiedValue)
  have hfull : M.FullBetween hash e.source e.target k := by
    intro j hj hjt
    obtain ⟨k', hk', hfull⟩ := hroute.full.resolve_left hnot j hj hjt
    obtain rfl : k = k' := Option.some.inj (hk.symm.trans hk')
    exact hfull
  have hlast := hroute.lt.trans_le hroute.le_last
  by_cases htagged : isTagged (M.value e.source e.entry)
  · obtain ⟨w, hw, hvalue⟩ := (hM.cell _ _).of_isTagged htagged hnot
    have hsame : tagValue (M.value e.source e.entry) = M.value e.source e.entry := by
      rw [hvalue, tagValue_tagValue]
    have hstrip : stripTag (M.value e.source e.entry) = w := by
      rw [hvalue, hw.stripTag_tagValue]
    rw [hsame, Memory.setValue_self]
    refine .same hM hrepresents ⟨hat, hcaller, k, ?_⟩
    rw [hstrip]
    exact ⟨hroute.lt, hroute.le_last, hfull, hk, hw, Or.inl hvalue⟩
  · have hw : Copiable (M.value e.source e.entry) :=
      (((hM.cell _ _).of_not_isTagged htagged).resolve_left hnull).resolve_left htomb
    have hlive : Shape.Live hash M e.source e.entry k :=
      ⟨hk, htagged, fun j => hat.passed_source hcaller hk j⟩
    have hshape := hM.tag hlive hw hlast
    have hlater : Memory.Later hash M
        (M.setValue e.source e.entry (tagValue (M.value e.source e.entry))) := by
      refine .setValue hnot (fun heq => ?_) fun k' w' _ _ hvalue => ?_
      · exact absurd (heq ▸ isTagged_tagValue _) (by decide)
      · exact absurd (hvalue ▸ isTagged_tagValue w') htagged
    refine ⟨hshape, hrepresents.of_contents rfl fun m hm => Shape.contents_tag hlive hw hm,
      hlater, hat.later hshape hM hlater, hcaller.later hat.le_last hlater, k, ?_⟩
    rw [hw.stripTag_eq]
    refine ⟨hroute.lt, hroute.le_last, hlater.fullBetween hroute.le_last hfull, hlater.key hk, hw,
      Or.inl ?_⟩
    rw [Memory.value_setValue, if_pos ⟨rfl, rfl⟩]

/-- The key of an entry that is copied goes into an empty one. -/
theorem Stepped.putCopyKey (hM : Shape hash M) (hrepresents : M.Represents hash)
    (hat : At hash M since c e.source) {caller : Caller} (hcaller : CallerFacts M c e caller)
    {entVal : Word} {j : Nat} {rest : List Nat} (htaken : Taken hash M e (stripTag entVal) k)
    (hsearched : Searched hash M e.target k (j :: rest)) (hempty : M.key e.target j = none) :
    Stepped hash M (M.setKey e.target j k) since (.copy c caller e (.putValue entVal k j)) := by
  have hlookUp := hsearched.lookUp hempty
  have hvacant : M.Vacant hash e.target k := ⟨j, hlookUp, hempty⟩
  have hwaits := htaken.waits hM (Shape.not_full_of_vacant hvacant) fun i hi =>
    absurd hi (hM.ne_key_of_vacant hvacant i)
  have hshape := hM.setKey htaken.le_last hlookUp hempty fun n' =>
    htaken.below (fun j => hat.passed_source hcaller htaken.key j) hwaits
  have hlater : Memory.Later hash M (M.setKey e.target j k) := .setKey hempty
  refine ⟨hshape, hrepresents.of_contents rfl fun m hm => hM.contents_setKey hlookUp hempty hm,
    hlater, hat.later hshape hM hlater, hcaller.later hat.le_last hlater,
    htaken.later hM hlater, ?_⟩
  rw [Memory.key_setKey, if_pos ⟨rfl, rfl⟩]

/-- A marked value is stored in a later table. -/
theorem Stepped.putCopyValue (hM : Shape hash M) (hrepresents : M.Represents hash)
    (hat : At hash M since c e.source) {caller : Caller} (hcaller : CallerFacts M c e caller)
    {w : Word} {j : Nat} (htaken : Taken hash M e w k)
    (hj : M.key e.target j = some k) (hnull : M.value e.target j = doesNotExist) :
    Stepped hash M (M.setValue e.target j w) since (.copy c caller e (.finish true)) := by
  have hwaits := htaken.waits hM (hM.not_full_of_key hj) fun i hi => by
    rwa [← hM.eq_of_key hj hi]
  have htarget : Shape.Target hash M e.source k w e.target j :=
    ⟨hwaits, fun j => hat.passed_source hcaller htaken.key j, htaken.lt, htaken.full, hj, hnull⟩
  have hw := htaken.copiable
  have hshape := hM.putCopy htarget
  have hlater : Memory.Later hash M (M.setValue e.target j w) := by
    refine .setValue ?_ hw.ne_doesNotExist fun k' w' _ _ hvalue => ?_
    · rw [hnull]
      exact not_done_doesNotExist
    · rw [hnull] at hvalue
      exact absurd (hvalue ▸ isTagged_tagValue w') (by decide)
  have htaken' := htaken.later hM hlater
  refine ⟨hshape, hrepresents.of_contents rfl fun m hm => hM.contents_putCopy htarget hm,
    hlater, hat.later hshape hM hlater, hcaller.later hat.le_last hlater, w, k, htaken',
    htaken'.written (j := j) (hlater.key hj) ?_⟩
  rw [Memory.value_setValue, if_pos ⟨rfl, rfl⟩]
  exact hw.ne_doesNotExist

/-- What a step in {lit}`copyEntry` keeps. -/
theorem CopyNext.stepped {caller : Caller} {p : CopyPc K} {p' : Pc K} (hM : Shape hash M)
    (hrepresents : M.Represents hash) (hat : At hash M since c e.source)
    (hcaller : CallerFacts M c e caller) (hcopy : CopyFacts hash M e p)
    (hstep : CopyNext hash M c caller e p M' p') : Stepped hash M M' since p' := by
  have hpassed : ∀ {k}, M.key e.source e.entry = some k → ∀ j, M.impl ≤ j → j < e.source →
      M.Passes hash j k := fun hk j => hat.passed_source hcaller hk j
  cases hstep with
  | copied hdone =>
      have hroute : Route hash M e := hcopy
      exact .same hM hrepresents
        (hat.facts_resume hcaller (hroute.lt.trans_le hroute.le_last) hdone false)
  | noValue => exact .same hM hrepresents ⟨hat, hcaller, hcopy⟩
  | someValue _ hnull => exact .same hM hrepresents ⟨hat, hcaller, hcopy, hnull⟩
  | putCopied hnull =>
      have hroute : Route hash M e := hcopy
      exact .finish hM hrepresents hat hcaller (hroute.lt.trans_le hroute.le_last)
        done_copiedValue (fun _ => rfl) (fun _ => ⟨hnull, rfl⟩)
        (fun k hk => .noValue (Or.inl hnull) (hpassed hk)) true
  | putCopiedFails hnull => exact .same hM hrepresents ⟨hat, hcaller, hcopy, hnull⟩
  | tagDone hdone =>
      have hroute : Route hash M e := hcopy.1
      exact .same hM hrepresents
        (hat.facts_resume hcaller (hroute.lt.trans_le hroute.le_last) hdone false)
  | tagTombStone htomb =>
      have hroute : Route hash M e := hcopy.1
      refine .finish hM hrepresents hat hcaller (hroute.lt.trans_le hroute.le_last) (Or.inr rfl)
        (fun htagged => ?_) (fun hnone => ?_)
        (fun k hk => .noValue (Or.inr htomb) (hpassed hk)) true
      · rw [htomb] at htagged
        exact absurd htagged (by decide)
      · rcases hM.keyless hnone with h | ⟨h, -⟩ <;> rw [htomb] at h <;> exact absurd h (by decide)
  | tag hvalue hnot htomb =>
      subst hvalue
      exact .tag hM hrepresents hat hcaller hcopy.1 hnot htomb hcopy.2
  | @readKey entVal k hk =>
      obtain ⟨k', htaken⟩ := hcopy
      obtain rfl : k = k' := Option.some.inj (hk.symm.trans htaken.key)
      exact .same hM hrepresents
        ⟨hat, hcaller, htaken, [], rfl, fun _ hi => absurd hi List.not_mem_nil⟩
  | searchOther hj hne =>
      exact .same hM hrepresents ⟨hat, hcaller, hcopy.1, hcopy.2.tail hj hne⟩
  | searchFound hj => exact .same hM hrepresents ⟨hat, hcaller, hcopy.1, hj⟩
  | searchEmpty _ => exact .same hM hrepresents ⟨hat, hcaller, hcopy.1, _, hcopy.2⟩
  | searchFull => exact .same hM hrepresents ⟨hat, hcaller, hcopy.1, hcopy.2.full⟩
  | fullNext hlast =>
      exact .same hM hrepresents ⟨hat, hcaller, hcopy.1.route_next hcopy.2 hlast⟩
  | fullLast _ => exact .same hM hrepresents ⟨hat, hcaller, hcopy⟩
  | startCopy minScale hlast _ =>
      refine .grow hM hrepresents fun hlater hshape =>
        ⟨hat.later hshape hM hlater, hcaller.later hat.le_last hlater,
          (hcopy.1.later hM hlater).route_next (hlater.full hcopy.1.le_last hcopy.2) ?_⟩
      rw [hlast]
      exact Nat.lt_succ_self M.last
  | startCopyFails hlast =>
      exact .same hM hrepresents ⟨hat, hcaller, hcopy.1.route_next hcopy.2 hlast⟩
  | putKey hempty =>
      obtain ⟨htaken, rest, hsearched⟩ := hcopy
      exact .putCopyKey hM hrepresents hat hcaller htaken hsearched hempty
  | putKeyFails _ => exact .same hM hrepresents ⟨hat, hcaller, hcopy.1.route⟩
  | putValue hnull => exact .putCopyValue hM hrepresents hat hcaller hcopy.1 hcopy.2 hnull
  | putValueCopied hvalue hlast =>
      obtain ⟨htaken, hj⟩ := hcopy
      exact .same hM hrepresents ⟨hat, hcaller, Nat.lt_succ_of_lt htaken.lt, hlast,
        Or.inl (htaken.done_of_copied hM hj hvalue)⟩
  | putValueFails hnull _ =>
      exact .same hM hrepresents
        ⟨hat, hcaller, _, _, hcopy.1, hcopy.1.written hcopy.2 hnull⟩
  | @finish did =>
      obtain ⟨w, k, htaken, hwritten⟩ := hcopy
      have hlast := htaken.lt.trans_le htaken.le_last
      rcases htaken.marked with htagged | ⟨hcopied, -⟩
      · refine .finish hM hrepresents hat hcaller hlast done_copiedValue (fun _ => rfl)
          (fun hnone => ?_) (fun k' hk' => ?_) did
        · rw [htaken.key] at hnone
          cases hnone
        · obtain rfl : k = k' := Option.some.inj (htaken.key.symm.trans hk')
          exact .written w htaken.copiable htagged hwritten
      · rw [← hcopied, Memory.setValue_self]
        exact .same hM hrepresents
          (hat.facts_resume hcaller hlast (hcopied ▸ done_copiedValue) did)

/-- The key of a call goes into an empty entry. -/
theorem Stepped.putKey (hM : Shape hash M) (hrepresents : M.Represents hash)
    (hat : At hash M since c n) {i : Nat} {rest : List Nat}
    (hsearched : Searched hash M n c.key (i :: rest)) (hempty : M.key n i = none) :
    Stepped hash M (M.setKey n i c.key) since (.readValue c n i) := by
  have hlookUp := hsearched.lookUp hempty
  have hshape := hM.setKey hat.le_last hlookUp hempty fun n' hn' hlt hnot =>
    absurd (hat.passed hn' hlt) hnot
  have hlater : Memory.Later hash M (M.setKey n i c.key) := .setKey hempty
  refine ⟨hshape, hrepresents.of_contents rfl fun m hm => hM.contents_setKey hlookUp hempty hm,
    hlater, hat.later hshape hM hlater, ?_⟩
  rw [Memory.key_setKey, if_pos ⟨rfl, rfl⟩]

/-- An entry with the key of the call and no tag is the live one. -/
theorem At.live (h : At hash M since c n) {i : Nat} (hi : M.key n i = some c.key)
    (huntagged : ¬ isTagged (M.value n i)) : Shape.Live hash M n i c.key :=
  ⟨hi, huntagged, fun _ hj hjn => h.passed hj hjn⟩

/-- A call replaces the value of its key, and is noted. -/
theorem Stepped.putValue (hM : Shape hash M) (hrepresents : M.Represents hash)
    (hat : At hash M since c n) {i : Nat} {newVal : Word} (hi : M.key n i = some c.key)
    (huntagged : ¬ isTagged (M.value n i)) (hwritten : c.written (M.value n i) = some newVal) :
    Stepped hash M ((M.setValue n i newVal).note c (oldValue (M.value n i))) since .idle := by
  obtain ⟨hcell, hnew, hnull⟩ := Call.cell_of_written hat.keeps hwritten
  have hlive := hat.live hi huntagged
  have hlater : Memory.Later hash M (M.setValue n i newVal) :=
    .setValue hlive.not_done hnull fun k w _ _ hvalue =>
      absurd (hvalue ▸ isTagged_tagValue w) huntagged
  have hshape := hM.putValue hlive hcell hnew
  refine ⟨⟨hshape.impl_le, hshape.placed, hshape.unmade, hshape.cell, hshape.keyless, hshape.next,
    hshape.unlinked, hshape.above⟩, ?_, hlater.note c _, trivial⟩
  obtain ⟨m, htrace, hm⟩ := hrepresents
  refine ⟨Function.update m c.key (oldValue newVal), ?_, hM.contents_putValue hlive hcell hnew hm⟩
  exact htrace.snoc (Call.callMap_of_written hat.keeps hwritten (hlive.eq_oldValue hM hm))

/-- The search for the key ends at an empty entry: at this moment or before, it did not exist. -/
theorem At.seen_of_vacant (h : At hash M since c n) (hrepresents : M.Represents hash)
    (hvacant : M.Vacant hash n c.key) : M.Seen since fun m => m c.key = doesNotExist := by
  by_cases hn : M.impl ≤ n
  · exact hrepresents.seen h.since_le fun m hm =>
      (hm c.key n hn fun _ hj hjn => h.passed hj hjn).1 hvacant
  · exact h.seen le_rfl (Nat.lt_of_not_le hn) hvacant

/-- All tables are full: the key does not exist. -/
theorem At.seen_of_full (h : At hash M since c n) (hM : Shape hash M)
    (hrepresents : M.Represents hash) (hfull : M.Full hash n c.key) (hn : n = M.last) :
    M.Seen since fun m => m c.key = doesNotExist := by
  refine hrepresents.seen h.since_le fun m hm => ?_
  refine (hm c.key (n + 1) (hn ▸ Nat.le_succ_of_le hM.impl_le) fun j hj hjn => ?_).1
    (hM.vacant_of_unmade (hn ▸ Nat.lt_succ_self n))
  rcases Nat.lt_succ_iff_lt_or_eq.mp hjn with hjn | rfl
  · exact h.passed hj hjn
  · exact Or.inl hfull

omit [DecidableEq K] in
/-- The count of the entries copied. -/
theorem numEntriesCopied_addCopied (M : Memory K) (n numCopied m : Nat) :
    ((M.addCopied n numCopied).tables m).numEntriesCopied =
      (M.tables m).numEntriesCopied + if m = n then numCopied else 0 := by
  unfold Memory.addCopied Memory.setTable
  by_cases hm : m = n
  · subst hm
    simp
  · simp [hm]

/-- What one step of a thread keeps, if the copied entries are counted right after it. -/
theorem Next.stepped {p p' : Pc K} (hM : Shape hash M) (hrepresents : M.Represents hash)
    (hcount : ∀ n, (M'.tables n).numEntriesCopied = M'.size n → Shape.AllCopied M' n)
    (hfacts : Facts hash M since p) (hstep : Next hash M p M' p') :
    Stepped hash M M' since p' := by
  cases hstep with
  | noNext _ => exact .same hM hrepresents hfacts.1.facts_enter
  | hasNext hlast => exact .same hM hrepresents ⟨hfacts.1, hfacts.2, hlast⟩
  | allCopied hall =>
      exact .same hM hrepresents ⟨hfacts.1, hfacts.2.2, hcount _ hall⟩
  | someLeft _ => exact .same hM hrepresents hfacts
  | @chunk c n x hx =>
      obtain ⟨hat, himpl, hlast⟩ := hfacts
      refine .same hM hrepresents ⟨hat, himpl, hlast, fun i hi => ?_⟩
      exact Tables.lt_size_of_mem_chunk hx hi
  | panic =>
      obtain ⟨hat, himpl, hlast⟩ := hfacts
      exact .same hM hrepresents ⟨hat, himpl, hlast, fun i hi => List.mem_range.mp hi⟩
  | help =>
      obtain ⟨hat, himpl, hlast, hentries⟩ := hfacts
      obtain ⟨hentry, hentries⟩ := List.forall_mem_cons.mp hentries
      exact .same hM hrepresents ⟨hat, ⟨himpl, hentry, hentries⟩, .first hlast⟩
  | noneCopied => exact .same hM hrepresents hfacts.1.facts_enter
  | @someCopied c n numCopied _ =>
      exact .addCopied_enter hM hrepresents hfacts.1 n (numCopied + 1)
  | @lastCopied c n numCopied hall =>
      have hsame := Memory.sameEntries_addCopied M n (numCopied + 1)
      have hlater : Memory.Later hash M (M.addCopied n (numCopied + 1)) := .addCopied M n _
      have hshape := hM.of_sameEntries hsame rfl rfl
      refine ⟨hshape, hrepresents.of_contents rfl fun m hm =>
        Shape.contents_of_sameEntries hsame rfl hm, hlater, hfacts.1.later hshape hM hlater,
        hfacts.2.2.1, hcount n ?_⟩
      rw [Memory.size_addCopied, numEntriesCopied_addCopied, if_pos rfl]
      exact hall
  | @unlink c n himpl =>
      subst himpl
      exact .unlink hM hrepresents hfacts.1 hfacts.2.1 hfacts.2.2
  | unlinkFails _ => exact .same hM hrepresents hfacts.1.facts_enter
  | searchOther hj hne => exact .same hM hrepresents ⟨hfacts.1, hfacts.2.tail hj hne⟩
  | searchFound hj => exact .same hM hrepresents ⟨hfacts.1, hj⟩
  | searchEmpty _ _ => exact .same hM hrepresents ⟨hfacts.1, _, hfacts.2⟩
  | searchAbsent hj hputs =>
      obtain ⟨hat, hsearched⟩ := hfacts
      have hseen := hat.seen_of_vacant hrepresents ⟨_, hsearched.lookUp hj, hj⟩
      exact .same hM hrepresents
        (hseen.imp fun m hm => Call.callMap_of_not_putsKey hputs hm)
  | searchFull => exact .same hM hrepresents ⟨hfacts.1, hfacts.2.full⟩
  | fullNext hlast =>
      exact .same hM hrepresents (hfacts.1.next (Or.inl hfacts.2) hlast).facts_enter
  | fullAbsent hn hget =>
      have hseen := hfacts.1.seen_of_full hM hrepresents hfacts.2 hn
      refine .same hM hrepresents (hseen.imp fun m hm => ?_)
      rw [Call.callMap_of_get hget, hm]
  | fullLast _ _ => exact .same hM hrepresents hfacts
  | @startCopy c n scale minScale hn _ =>
      refine .grow hM hrepresents fun hlater hshape =>
        At.facts_enter ((hfacts.1.later hshape hM hlater).next ?_ ?_)
      · exact Or.inl (hlater.full hfacts.1.le_last hfacts.2)
      · rw [hn]
        exact Nat.lt_succ_self M.last
  | startCopyFails hlast =>
      exact .same hM hrepresents (hfacts.1.next (Or.inl hfacts.2) hlast).facts_enter
  | putKey hempty =>
      obtain ⟨hat, rest, hsearched⟩ := hfacts
      exact .putKey hM hrepresents hat hsearched hempty
  | putKeyFails _ => exact .same hM hrepresents hfacts.1.facts_enter
  | valueDone hdone =>
      refine .same hM hrepresents (hfacts.1.next (Or.inr ⟨_, hfacts.2, hdone⟩) ?_).facts_enter
      exact hM.next hdone.isTagged
  | valueTagged _ htagged =>
      exact .same hM hrepresents ⟨hfacts.1, hfacts.2, .first (hM.next htagged)⟩
  | keepValue huntagged hkeep =>
      obtain ⟨hat, hi⟩ := hfacts
      refine .same hM hrepresents (hrepresents.seen hat.since_le fun m hm => ?_)
      exact Call.callMap_of_written_eq_none hat.keeps hkeep
        ((hat.live hi huntagged).eq_oldValue hM hm)
  | swapValue huntagged hswap =>
      exact .same hM hrepresents ⟨hfacts.1, hfacts.2, huntagged, hswap⟩
  | putValue hvalue =>
      obtain ⟨hat, hi, huntagged, hwritten⟩ := hfacts
      subst hvalue
      exact .putValue hM hrepresents hat hi huntagged hwritten
  | putValueFails _ => exact .same hM hrepresents hfacts.1.facts_enter
  | copy hcopy =>
      obtain ⟨hat, hcaller, hcopyFacts⟩ := hfacts
      exact hcopy.stepped hM hrepresents hat hcaller hcopyFacts
  | @addCopied c n => exact .addCopied_enter hM hrepresents hfacts n 1

end

end SharedTables
end Lockfree
end OFlux
