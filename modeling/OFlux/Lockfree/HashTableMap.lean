import OFlux.Lockfree.HashTableEntries

/-!
# The growing hash table as a map

The first table of the chain that does not pass a key on has its value.  Copying moves entries
between the tables without a change of any answer, as long as the tag bit can be stripped from a
value without loss.

Main results:

- Theorem {lit}`spec_compareAndSwapFrom`: one call to the tables after each other.
- Theorem {lit}`copyEntry_spec`: one copied entry.
- Theorem {lit}`run_eq`: all calls return what a map returns.
-/

namespace OFlux
namespace Lockfree

open Library HashTableConstants
open Implementation (Wf Quiet Puts Fits Storable)

namespace Tables

variable {K : Type} [DecidableEq K]

section

variable {hash : K → Word} {t t' nht : Implementation K} {rest l l' : List (Implementation K)}
variable {k k' : K}

/-! ## Values -/

theorem getFrom_cons (t : Implementation K) (rest : List (Implementation K)) (k : K) :
    getFrom hash k (t :: rest) = (t.answer hash k).getD (getFrom hash k rest) := by
  rw [getFrom, Implementation.answer]
  cases t.lookUp hash k with
  | none => rfl
  | some i =>
      dsimp only
      cases t.key i with
      | none => rfl
      | some _ =>
          dsimp only
          split
          · rfl
          · rfl

/-- A table that answers hides the later ones. -/
theorem getFrom_cons_of_answer {v : Word} (h : t.answer hash k = some v) :
    getFrom hash k (t :: rest) = v := by
  rw [getFrom_cons, h, Option.getD_some]

/-- A table that does not answer is passed. -/
theorem getFrom_cons_of_passed (h : t.answer hash k = none) :
    getFrom hash k (t :: rest) = getFrom hash k rest := by
  rw [getFrom_cons, h, Option.getD_none]

/-- A key that is in none of the tables does not exist. -/
theorem getFrom_eq_doesNotExist (h : ∀ t ∈ l, ¬ t.HasKey k) :
    getFrom hash k l = doesNotExist := by
  induction l with
  | nil => rfl
  | cons t l ih =>
      rw [List.forall_mem_cons] at h
      rcases Implementation.answer_of_not_hasKey hash h.1 with hanswer | hanswer
      · rw [getFrom_cons_of_passed hanswer, ih h.2]
      · exact getFrom_cons_of_answer hanswer

/-! ## The shape of the chain -/

/-- The tables of the chain: only the first one is being copied, and a key is in no table behind
one that does not pass it on. -/
structure Shape (hash : K → Word) (tables : Tables K) : Prop where
  wf : ∀ t ∈ tables.all, t.Wf hash
  quiet : ∀ t ∈ tables.next, t.Quiet
  passes : tables.all.Pairwise fun t u => ∀ k, u.HasKey k → t.answer hash k = none
  scales : tables.all.Pairwise fun t u => t.scale ≤ u.scale
  alone : tables.next = [] → tables.impl.Quiet

/-- Some table of the list has the key. -/
def HasKey (tables : Tables K) (k : K) : Prop := ∃ t ∈ tables.all, t.HasKey k

variable {tables tables' : Tables K}

/-- A further table in front. -/
theorem Shape.cons (h : Shape hash tables) (hwf : t.Wf hash) (hquiet : tables.impl.Quiet)
    (hpasses : ∀ k, tables.HasKey k → t.answer hash k = none)
    (hscale : t.scale ≤ tables.impl.scale) : Shape hash ⟨t, tables.all⟩ where
  wf := List.forall_mem_cons.mpr ⟨hwf, h.wf⟩
  quiet := List.forall_mem_cons.mpr ⟨hquiet, h.quiet⟩
  passes := List.pairwise_cons.mpr ⟨fun u hu k hk => hpasses k ⟨u, hu, hk⟩, h.passes⟩
  scales := by
    refine List.pairwise_cons.mpr ⟨List.forall_mem_cons.mpr ⟨hscale, fun u hu => ?_⟩, h.scales⟩
    exact hscale.trans ((List.pairwise_cons.mp h.scales).1 u hu)
  alone := fun hnil => by cases hnil

/-- The tables behind the first have the shape. -/
theorem Shape.tail (h : Shape hash ⟨t, nht :: rest⟩) : Shape hash ⟨nht, rest⟩ where
  wf := (List.forall_mem_cons.mp h.wf).2
  quiet := (List.forall_mem_cons.mp h.quiet).2
  passes := (List.pairwise_cons.mp h.passes).2
  scales := (List.pairwise_cons.mp h.scales).2
  alone := fun _ => (List.forall_mem_cons.mp h.quiet).1

/-- A key of a later table is passed in the first. -/
theorem Shape.passed (h : Shape hash ⟨t, rest⟩) {u : Implementation K} (hu : u ∈ rest)
    (hk : u.HasKey k) : t.answer hash k = none :=
  (List.pairwise_cons.mp h.passes).1 u hu k hk

/-! ## A table without entries -/

omit [DecidableEq K] in
/-- A new table has no key. -/
theorem not_hasKey_new (scale : Nat) (hscale : 4 ≤ scale) :
    ¬ (Implementation.new scale hscale : Implementation K).HasKey k := by
  rintro ⟨i, hi⟩
  cases hi

omit [DecidableEq K] in
/-- A new table is quiet. -/
theorem quiet_new (scale : Nat) (hscale : 4 ≤ scale) :
    (Implementation.new scale hscale : Implementation K).Quiet where
  untagged := fun _ => (by decide : ¬ isTagged doesNotExist)
  none_copied := rfl

/-- A new table answers that there is nothing. -/
theorem answer_new (scale : Nat) (hscale : 4 ≤ scale) :
    (Implementation.new scale hscale : Implementation K).answer hash k = some doesNotExist := by
  have hempty : ∃ i, (Implementation.new scale hscale : Implementation K).lookUp hash k = some i :=
    Probing.lookUp_of_empty (fun _ => rfl) (Implementation.probes_ne_nil _ _)
  obtain ⟨i, hi⟩ := hempty
  exact Implementation.answer_of_key_eq_none hi rfl

/-- A new table alone has the shape. -/
theorem shape_new (scale : Nat) (hscale : 4 ≤ scale) :
    Shape hash ⟨Implementation.new scale hscale, []⟩ where
  wf := List.forall_mem_singleton.mpr
    { placed := fun i k hi => by cases hi
      copied := fun i hi => absurd hi ((quiet_new scale hscale).untagged i)
      empty := fun _ _ => Or.inl rfl
      kept := fun _ _ => (by decide : stripTag doesNotExist = doesNotExist)
      aligned := Nat.dvd_zero _
      refs := Nat.one_pos }
  quiet := List.forall_mem_nil _
  passes := List.pairwise_singleton _ _
  scales := List.pairwise_singleton _ _
  alone := fun _ => quiet_new scale hscale

/-! ## What a call does to its key -/

/-- The chain after a call: the key has a value, and all other keys have theirs as before. -/
structure Outcome (hash : K → Word) (k : K) (v : Word) (tables tables' : Tables K) : Prop where
  shape : Shape hash tables'
  puts : Puts hash k tables.impl tables'.impl
  hasKey : ∀ {k'}, tables'.HasKey k' → k' = k ∨ tables.HasKey k'
  self : getFrom hash k tables'.all = v
  others : ∀ {k'}, k' ≠ k → getFrom hash k' tables'.all = getFrom hash k' tables.all

variable {v : Word}

/-- A key that was passed on still is. -/
theorem answer_eq_none_of_puts (hputs : Puts hash k t t') (hwf : t.Wf hash) (hne : k' ≠ k)
    (hk' : t.answer hash k' = none) : t'.answer hash k' = none := by
  rcases hputs.answer_of_ne hwf hne with heq | ⟨heq, -⟩
  · rw [heq, hk']
  · rw [hk'] at heq
    cases heq

theorem getFrom_puts_of_ne (hputs : Puts hash k t t') (hwf : t.Wf hash)
    (hpasses : ∀ u ∈ l, u.HasKey k' → t.answer hash k' = none) (hne : k' ≠ k)
    (hl : getFrom hash k' l' = getFrom hash k' l) :
    getFrom hash k' (t' :: l') = getFrom hash k' (t :: l) := by
  rcases hputs.answer_of_ne hwf hne with heq | ⟨hnull, hnot⟩
  · rw [getFrom_cons, getFrom_cons, heq, hl]
  · have hnot' : ¬ t'.HasKey k' := fun hk' => (hputs.hasKey hk').elim hne hnot
    have habsent : getFrom hash k' l = doesNotExist := by
      refine getFrom_eq_doesNotExist fun u hu hk' => ?_
      rw [hpasses u hu hk'] at hnull
      cases hnull
    rw [getFrom_cons_of_answer hnull]
    rcases Implementation.answer_of_not_hasKey hash hnot' with hanswer | hanswer
    · rw [getFrom_cons_of_passed hanswer, hl, habsent]
    · exact getFrom_cons_of_answer hanswer

/-- The first table answers for the key. -/
theorem Outcome.here (hshape : Shape hash ⟨t, rest⟩) (hputs : Puts hash k t t')
    (hbefore : t.answer hash k ≠ none) (hafter : t'.answer hash k = some v) :
    Outcome hash k v ⟨t, rest⟩ ⟨t', rest⟩ where
  shape :=
    { wf := List.forall_mem_cons.mpr
        ⟨hputs.wf (List.forall_mem_cons.mp hshape.wf).1, (List.forall_mem_cons.mp hshape.wf).2⟩
      quiet := hshape.quiet
      passes := by
        refine List.pairwise_cons.mpr ⟨fun u hu k' hk' => ?_,
          (List.pairwise_cons.mp hshape.passes).2⟩
        have hpassed := hshape.passed hu hk'
        refine answer_eq_none_of_puts hputs (List.forall_mem_cons.mp hshape.wf).1 ?_ hpassed
        rintro rfl
        exact hbefore hpassed
      scales := by
        have hscales := List.pairwise_cons.mp hshape.scales
        refine List.pairwise_cons.mpr ⟨fun u hu => ?_, hscales.2⟩
        rw [hputs.scale_eq]
        exact hscales.1 u hu
      alone := fun hnil => hputs.quiet (hshape.alone hnil) }
  puts := hputs
  hasKey := by
    rintro k' ⟨u, hu, hk'⟩
    rcases List.mem_cons.mp hu with rfl | hu
    · exact (hputs.hasKey hk').imp_right fun hk' => ⟨t, List.mem_cons_self, hk'⟩
    · exact Or.inr ⟨u, List.mem_cons_of_mem _ hu, hk'⟩
  self := getFrom_cons_of_answer hafter
  others := fun hne => getFrom_puts_of_ne hputs (List.forall_mem_cons.mp hshape.wf).1
    (fun _ hu hk' => hshape.passed hu hk') hne rfl

/-- The first table passes the key on. -/
theorem Outcome.cons (hshape : Shape hash ⟨t, tables.all⟩) (hputs : Puts hash k t t')
    (hafter : t'.answer hash k = none) (h : Outcome hash k v tables tables') :
    Outcome hash k v ⟨t, tables.all⟩ ⟨t', tables'.all⟩ := by
  have hwf := (List.forall_mem_cons.mp hshape.wf).1
  have hquiet := (List.forall_mem_cons.mp hshape.quiet).1
  refine
    { shape := ?_, puts := hputs, hasKey := ?_, self := ?_, others := ?_ }
  · refine h.shape.cons (hputs.wf hwf) (h.puts.quiet hquiet) (fun k' hk' => ?_) ?_
    · by_cases hne : k' = k
      · rw [hne, hafter]
      · obtain ⟨u, hu, hk'⟩ := (h.hasKey hk').resolve_left hne
        exact answer_eq_none_of_puts hputs hwf hne (hshape.passed hu hk')
    · rw [hputs.scale_eq, h.puts.scale_eq]
      exact (List.pairwise_cons.mp hshape.scales).1 _ List.mem_cons_self
  · rintro k' ⟨u, hu, hk'⟩
    rcases List.mem_cons.mp hu with rfl | hu
    · exact (hputs.hasKey hk').imp_right fun hk' => ⟨t, List.mem_cons_self, hk'⟩
    · refine (h.hasKey ⟨u, hu, hk'⟩).imp_right ?_
      rintro ⟨u, hu, hk'⟩
      exact ⟨u, List.mem_cons_of_mem _ hu, hk'⟩
  · exact (getFrom_cons_of_passed hafter).trans h.self
  · intro k' hne
    exact getFrom_puts_of_ne hputs hwf (fun _ hu hk' => hshape.passed hu hk') hne (h.others hne)

/-- A new table at the end. -/
theorem Shape.grow (h : Shape hash ⟨t, []⟩) {scale : Nat} (hscale : 4 ≤ scale)
    (hle : t.scale ≤ scale) : Shape hash ⟨t, [Implementation.new scale hscale]⟩ := by
  refine (shape_new scale hscale).cons (h.wf t List.mem_cons_self) (quiet_new scale hscale)
    (fun k hk => ?_) hle
  obtain ⟨u, hu, hk⟩ := hk
  rw [List.mem_singleton.mp hu] at hk
  exact absurd hk (not_hasKey_new scale hscale)

/-- A table without entries at the end does not count. -/
theorem getFrom_grow (t : Implementation K) (scale : Nat) (hscale : 4 ≤ scale) :
    getFrom hash k [t, Implementation.new scale hscale] = getFrom hash k [t] := by
  rw [getFrom_cons, getFrom_cons_of_answer (answer_new scale hscale), getFrom_cons]
  rfl

/-- A swap into the new table is a swap that makes it. -/
theorem Outcome.of_grow {scale : Nat} {hscale : 4 ≤ scale}
    (h : Outcome hash k v ⟨t, [Implementation.new scale hscale]⟩ tables') :
    Outcome hash k v ⟨t, []⟩ tables' where
  shape := h.shape
  puts := h.puts
  hasKey := by
    intro k' hk'
    refine (h.hasKey hk').imp_right ?_
    rintro ⟨u, hu, hk'⟩
    rcases List.mem_pair.mp hu with rfl | rfl
    · exact ⟨u, List.mem_cons_self, hk'⟩
    · exact absurd hk' (not_hasKey_new scale hscale)
  self := h.self
  others := fun hne => (h.others hne).trans (getFrom_grow t scale hscale)

omit [DecidableEq K] in
/-- The next table is no smaller. -/
theorem scale_le_startCopy (t : Implementation K) : t.scale ≤ t.startCopy.scale :=
  Nat.le_add_right _ _

/-! ## One call to the tables after each other -/

variable {expectedVal newVal : Word}

/-- The value of the key after a call. -/
def afterCall (expectedVal newVal current : Word) : Word :=
  if Fits expectedVal current then newVal else current

/-- The table has the entry. -/
theorem outcome_of_answer {old : Word} (hshape : Shape hash ⟨t, rest⟩) (hputs : Puts hash k t t')
    (hbefore : t.answer hash k = some (oldValue old))
    (hafter : t'.answer hash k = some (afterCall expectedVal newVal (oldValue old))) :
    oldValue old = getFrom hash k (t :: rest) ∧
      Outcome hash k (afterCall expectedVal newVal (getFrom hash k (t :: rest)))
        ⟨t, rest⟩ ⟨t', rest⟩ := by
  rw [getFrom_cons_of_answer hbefore]
  exact ⟨rfl, Outcome.here hshape hputs (by simp [hbefore]) hafter⟩

/-- The table passes the call on. -/
theorem getFrom_cons_of_absent (hshape : Shape hash ⟨t, rest⟩)
    (hbefore : t.answer hash k = none ∨ t.answer hash k = some doesNotExist ∧ ¬ t.HasKey k) :
    getFrom hash k (t :: rest) = getFrom hash k rest := by
  rcases hbefore with hbefore | ⟨hbefore, -⟩
  · exact getFrom_cons_of_passed hbefore
  · rw [getFrom_cons_of_answer hbefore, getFrom_eq_doesNotExist]
    intro u hu hk
    rw [hshape.passed hu hk] at hbefore
    cases hbefore

/-- A swap writes one key and answers with what was there. -/
theorem spec_compareAndSwapFrom (hshape : Shape hash ⟨t, rest⟩) (he : expectedVal ≠ tombStone)
    (hn : Storable newVal) :
    let r := compareAndSwapFrom hash k expectedVal newVal t rest
    oldValue r.1 = getFrom hash k (t :: rest) ∧
      Outcome hash k (afterCall expectedVal newVal (getFrom hash k (t :: rest))) ⟨t, rest⟩ r.2 := by
  induction rest generalizing t with
  | nil =>
      have hspec := Implementation.compareAndSwap_spec (k := k) (hshape.wf t List.mem_cons_self)
        he hn
      dsimp only
      rw [compareAndSwapFrom]
      cases hcas : t.compareAndSwap hash k expectedVal newVal with
      | mk old t' =>
          rw [hcas] at hspec
          obtain ⟨hputs, ⟨rfl, hafter, hbefore⟩ | ⟨hold, hbefore, hafter⟩⟩ := hspec
          · -- a new table takes the key
            have hgrow := hputs.scale_eq ▸ scale_le_startCopy t'
            have hfresh : t'.startCopy.answer hash k = some doesNotExist := answer_new _ _
            have hfreshShape : Shape hash ⟨t'.startCopy, []⟩ := shape_new _ _
            have hspec := Implementation.compareAndSwap_spec (k := k)
              (hfreshShape.wf _ List.mem_cons_self) he hn
            dsimp only
            rw [if_pos rfl]
            cases hcas' : t'.startCopy.compareAndSwap hash k expectedVal newVal with
            | mk old nht =>
                rw [hcas'] at hspec
                obtain ⟨hputs', ⟨-, hafter', -⟩ | ⟨-, hbefore', hafter'⟩⟩ := hspec
                · exact absurd hafter'
                    (hputs'.answer_ne_none (hfreshShape.alone rfl) (by simp [hfresh]))
                · obtain ⟨hold, houtcome⟩ :=
                    outcome_of_answer hfreshShape hputs' hbefore' hafter'
                  have hsame : getFrom hash k [t] = getFrom hash k [t'.startCopy] := by
                    rw [getFrom_cons_of_absent hshape hbefore, getFrom_cons_of_answer hfresh]
                    rfl
                  rw [hsame]
                  exact ⟨hold,
                    (Outcome.cons (hshape.grow _ hgrow) hputs hafter houtcome).of_grow⟩
          · dsimp only
            rw [if_neg hold]
            exact outcome_of_answer hshape hputs hbefore hafter
  | cons nht rest ih =>
      have hspec := Implementation.compareAndSwap_spec (k := k) (hshape.wf t List.mem_cons_self)
        he hn
      dsimp only
      rw [compareAndSwapFrom]
      cases hcas : t.compareAndSwap hash k expectedVal newVal with
      | mk old t' =>
          rw [hcas] at hspec
          obtain ⟨hputs, ⟨rfl, hafter, hbefore⟩ | ⟨hold, hbefore, hafter⟩⟩ := hspec
          · obtain ⟨hold, houtcome⟩ := ih hshape.tail
            dsimp only
            rw [if_pos rfl, getFrom_cons_of_absent hshape hbefore]
            exact ⟨hold, Outcome.cons hshape hputs hafter houtcome⟩
          · dsimp only
            rw [if_neg hold]
            exact outcome_of_answer hshape hputs hbefore hafter

/-! ## One copied entry -/

/-- A copied key goes into the first table that does not pass it on. -/
theorem copyInto_spec (t : Implementation K) (hshape : Shape hash ⟨nht, rest⟩)
    (hquiet : nht.Quiet) (hnot : ∀ u ∈ nht :: rest, ¬ u.HasKey k) (huntagged : ¬ isTagged v)
    (hstrip : stripTag v = v) :
    ∃ tables', Implementation.copyInto hash k v t (nht :: rest) = (true, tables'.all) ∧
      Outcome hash k (oldValue v) ⟨nht, rest⟩ tables' := by
  induction rest generalizing t nht with
  | nil =>
      rw [Implementation.copyInto]
      rcases Implementation.putCopy_spec (hshape.wf nht List.mem_cons_self) hquiet
        (hnot nht List.mem_cons_self) huntagged hstrip with
        ⟨hput, hpassed⟩ | ⟨nht', hput, hputs, hbefore, hafter⟩
      · have hfresh : nht.startCopy.answer hash k = some doesNotExist := answer_new _ _
        have hfreshShape : Shape hash ⟨nht.startCopy, []⟩ := shape_new _ _
        rcases Implementation.putCopy_spec (hfreshShape.wf _ List.mem_cons_self)
          (hfreshShape.alone rfl) (not_hasKey_new _ _) huntagged hstrip with
          ⟨-, hpassed'⟩ | ⟨nht', hput', hputs', hbefore', hafter'⟩
        · rw [hfresh] at hpassed'
          cases hpassed'
        · refine ⟨⟨nht, [nht']⟩, ?_, ?_⟩
          · rw [hput]
            dsimp only
            rw [Implementation.copyInto, hput']
            rfl
          · exact (Outcome.cons (hshape.grow _ (scale_le_startCopy nht)) Puts.same hpassed
              (Outcome.here hfreshShape hputs' hbefore' hafter')).of_grow
      · exact ⟨⟨nht', []⟩, by rw [hput]; rfl, Outcome.here hshape hputs hbefore hafter⟩
  | cons u rest ih =>
      rw [Implementation.copyInto]
      rcases Implementation.putCopy_spec (hshape.wf nht List.mem_cons_self) hquiet
        (hnot nht List.mem_cons_self) huntagged hstrip with
        ⟨hput, hpassed⟩ | ⟨nht', hput, hputs, hbefore, hafter⟩
      · obtain ⟨tables', hcopy, houtcome⟩ := ih nht hshape.tail
          (hshape.quiet u List.mem_cons_self) (List.forall_mem_cons.mp hnot).2
        refine ⟨⟨nht, tables'.all⟩, ?_, Outcome.cons hshape Puts.same hpassed houtcome⟩
        rw [hput]
        dsimp only
        rw [hcopy]
        rfl
      · exact ⟨⟨nht', u :: rest⟩, by rw [hput]; rfl, Outcome.here hshape hputs hbefore hafter⟩

/-- Copying changes no value, and no table but the first one has copied entries. -/
structure CopyStep (hash : K → Word) (tables tables' : Tables K) : Prop where
  shape : Shape hash tables'
  next_ne_nil : tables'.next ≠ []
  same : ∀ k, getFrom hash k tables'.all = getFrom hash k tables.all
  tagged : ∀ {i}, isTagged (tables.impl.value i) → isTagged (tables'.impl.value i)
  scale_eq : tables'.impl.scale = tables.impl.scale
  numEntriesCopied_eq : tables'.impl.numEntriesCopied = tables.impl.numEntriesCopied
  copyScan_eq : tables'.impl.copyScan = tables.impl.copyScan

theorem CopyStep.refl (hshape : Shape hash tables) (hnext : tables.next ≠ []) :
    CopyStep hash tables tables :=
  ⟨hshape, hnext, fun _ => rfl, id, rfl, rfl, rfl⟩

theorem CopyStep.trans {tables'' : Tables K} (h : CopyStep hash tables tables')
    (h' : CopyStep hash tables' tables'') : CopyStep hash tables tables'' :=
  ⟨h'.shape, h'.next_ne_nil, fun k => (h'.same k).trans (h.same k), fun hi => h'.tagged (h.tagged hi),
    h'.scale_eq.trans h.scale_eq, h'.numEntriesCopied_eq.trans h.numEntriesCopied_eq,
    h'.copyScan_eq.trans h.copyScan_eq⟩

open Implementation (Tags)

variable {i : Nat}

/-- The entry has been copied, and its key, if it had a value, is in the tables behind. -/
theorem CopyStep.of_tags (hshape : Shape hash ⟨t, nht :: rest⟩) (htags : Tags i t t')
    (hshape' : Shape hash tables') (hquiet : tables'.impl.Quiet)
    (hscale : tables'.impl.scale = nht.scale)
    (hkeys : ∀ k, tables'.HasKey k → t.key i = some k ∨ HasKey ⟨nht, rest⟩ k)
    (hself : ∀ k, t.key i = some k →
      getFrom hash k tables'.all = getFrom hash k (t :: nht :: rest))
    (hothers : ∀ k, t.key i ≠ some k → getFrom hash k tables'.all = getFrom hash k (nht :: rest)) :
    CopyStep hash ⟨t, nht :: rest⟩ ⟨t', tables'.all⟩ := by
  have hwf := (List.forall_mem_cons.mp hshape.wf).1
  refine ⟨hshape'.cons (htags.wf hwf) hquiet (fun k hk => ?_) ?_, List.cons_ne_nil _ _,
    fun k => ?_, fun {j} hj => ?_, htags.scale_eq, htags.numEntriesCopied_eq, htags.copyScan_eq⟩
  · rcases hkeys k hk with hi | ⟨u, hu, hk⟩
    · exact htags.answer_self hwf hi
    · exact htags.answer_eq_none hwf (hshape.passed hu hk)
  · rw [htags.scale_eq, hscale]
    exact (List.pairwise_cons.mp hshape.scales).1 _ List.mem_cons_self
  · by_cases hi : t.key i = some k
    · exact (getFrom_cons_of_passed (htags.answer_self hwf hi)).trans (hself k hi)
    · change getFrom hash k (t' :: tables'.all) = getFrom hash k (t :: nht :: rest)
      rw [getFrom_cons, getFrom_cons, htags.answer_of_ne hi, hothers k hi]
  · by_cases hji : j = i
    · rw [hji]
      exact htags.isTagged_self
    · change isTagged (t'.value j)
      rw [htags.value_of_ne hji]
      exact hj

/-- A key without a value need not be copied. -/
theorem CopyStep.of_tags_of_absent (hshape : Shape hash ⟨t, nht :: rest⟩) (htags : Tags i t t')
    (huntagged : ¬ isTagged (t.value i)) (hnull : oldValue (t.value i) = doesNotExist) :
    CopyStep hash ⟨t, nht :: rest⟩ ⟨t', nht :: rest⟩ := by
  have hwf := (List.forall_mem_cons.mp hshape.wf).1
  refine CopyStep.of_tags hshape htags hshape.tail (hshape.quiet nht List.mem_cons_self) rfl
    (fun k hk => Or.inr hk) (fun k hi => ?_) fun _ _ => rfl
  have hanswer : t.answer hash k = some doesNotExist := by
    rw [Implementation.answer_of_key (hwf.placed i k hi) hi, if_neg huntagged, hnull]
  rw [getFrom_cons_of_answer hanswer, getFrom_eq_doesNotExist]
  intro u hu hk
  rw [hshape.passed hu hk] at hanswer
  cases hanswer

omit [DecidableEq K] in
/-- Marking an entry as copied tags it. -/
theorem tags_setValue {w : Word} {c : Nat}
    (hw : w = copiedValue ∨ w = tagValue tombStone ∧ t.key i ≠ none) :
    Tags i t { t.setValue i w with count := c } where
  key_eq := Implementation.key_setValue t i w
  value_of_ne := fun hji => (Implementation.value_setValue t i _ w).trans (if_neg hji)
  tagged := hw.imp ((Implementation.value_setValue t i i w).trans (if_pos rfl)).trans
    (And.imp_left ((Implementation.value_setValue t i i w).trans (if_pos rfl)).trans)
  scale_eq := rfl
  numEntriesCopied_eq := rfl
  copyScan_eq := rfl
  refCount_eq := rfl

/-- One entry: either it has been copied before, or it is now. -/
theorem copyEntry_spec (hshape : Shape hash ⟨t, nht :: rest⟩) (i : Nat) :
    let r := copyEntry hash ⟨t, nht :: rest⟩ i
    isTagged (t.value i) ∧ r = (false, ⟨t, nht :: rest⟩) ∨
      ¬ isTagged (t.value i) ∧ r.1 = true ∧ Tags i t r.2.impl ∧
        CopyStep hash ⟨t, nht :: rest⟩ r.2 := by
  have hwf := (List.forall_mem_cons.mp hshape.wf).1
  dsimp only
  unfold copyEntry
  dsimp only
  by_cases htagged : isTagged (t.value i)
  · rw [if_pos (hwf.copied i htagged)]
    exact Or.inl ⟨htagged, rfl⟩
  · have hnot : ¬ (t.value i = copiedValue ∨ t.value i = tagValue tombStone) := by
      rintro (h | h)
      · exact htagged (by rw [h]; decide)
      · exact htagged (by rw [h]; decide)
    rw [if_neg hnot]
    refine Or.inr ⟨htagged, ?_⟩
    split
    next hnull =>
      have htags : Tags i t (t.setValue i copiedValue) := tags_setValue (c := t.count) (Or.inl rfl)
      exact ⟨rfl, htags, CopyStep.of_tags_of_absent hshape htags htagged (by rw [hnull]; rfl)⟩
    next hnull =>
      obtain ⟨k, hi⟩ : ∃ k, t.key i = some k := by
        refine Option.ne_none_iff_exists'.mp fun hi => ?_
        rcases hwf.empty i hi with h | h
        · exact hnull h
        · exact hnot (Or.inl h)
      split
      next htomb =>
        have htags : Tags i t (t.setValue i (tagValue (t.value i))) :=
          tags_setValue (c := t.count)
            (Or.inr ⟨by rw [htomb], by rw [hi]; exact Option.some_ne_none k⟩)
        exact ⟨rfl, htags, CopyStep.of_tags_of_absent hshape htags htagged (by rw [htomb]; rfl)⟩
      next htomb =>
        have hkept := hwf.kept i htagged
        have hanswer : t.answer hash k = some (oldValue (t.value i)) := by
          rw [Implementation.answer_of_key (hwf.placed i k hi) hi, if_neg htagged]
        have habsent : ∀ u ∈ nht :: rest, ¬ u.HasKey k := by
          intro u hu hk
          rw [hshape.passed hu hk] at hanswer
          cases hanswer
        obtain ⟨tables', hcopy, houtcome⟩ := copyInto_spec
          (t.setValue i (tagValue (t.value i))) hshape.tail (hshape.quiet nht List.mem_cons_self)
          habsent htagged hkept
        simp only [Implementation.key_setValue, hi, hkept, hcopy, if_true,
          Implementation.setValue_setValue]
        have htags : Tags i t { t.setValue i copiedValue with count := t.count - 1 } :=
          tags_setValue (Or.inl rfl)
        refine ⟨trivial, htags, CopyStep.of_tags hshape htags houtcome.shape
          (houtcome.puts.quiet (hshape.quiet nht List.mem_cons_self)) houtcome.puts.scale_eq
          (fun k' hk' => ?_) (fun k' hi' => ?_) fun k' hi' => ?_⟩
        · refine (houtcome.hasKey hk').imp_left fun heq => ?_
          rw [heq, hi]
        · obtain rfl : k = k' := Option.some.inj (hi.symm.trans hi')
          rw [houtcome.self, getFrom_cons_of_answer hanswer]
        · refine houtcome.others fun heq => hi' ?_
          rw [heq, hi]

/-! ## Help with the copying -/

/-- Copying some entries keeps the contents. -/
theorem copyEntries_spec (hshape : Shape hash tables) (hnext : tables.next ≠ []) {l : List Nat}
    (hl : ∀ i ∈ l, i < tables.impl.size) :
    let r := tables.copyEntries hash l
    CopyStep hash tables r.2 ∧
      r.2.impl.taggedCount = tables.impl.taggedCount + r.1 ∧
      ∀ i ∈ l, isTagged (r.2.impl.value i) := by
  induction l generalizing tables with
  | nil => exact ⟨CopyStep.refl hshape hnext, rfl, List.forall_mem_nil _⟩
  | cons i l ih =>
      obtain ⟨t, next⟩ := tables
      obtain ⟨nht, rest, rfl⟩ := List.exists_cons_of_ne_nil hnext
      obtain ⟨hi, hl⟩ := List.forall_mem_cons.mp hl
      have hentry := copyEntry_spec hshape i
      dsimp only
      rw [copyEntries]
      cases hcopy : copyEntry hash ⟨t, nht :: rest⟩ i with
      | mk did tables' =>
          rw [hcopy] at hentry
          obtain ⟨hstep, hcount, htagged⟩ : CopyStep hash ⟨t, nht :: rest⟩ tables' ∧
              tables'.impl.taggedCount = t.taggedCount + did.toNat ∧
              isTagged (tables'.impl.value i) := by
            rcases hentry with ⟨htagged, heq⟩ | ⟨huntagged, hdid, htags, hstep⟩
            · cases heq
              exact ⟨CopyStep.refl hshape hnext, rfl, htagged⟩
            · cases hdid
              exact ⟨hstep, htags.taggedCount_eq hi huntagged, htags.isTagged_self⟩
          have hsize : tables'.impl.size = t.size := congrArg (2 ^ ·) hstep.scale_eq
          obtain ⟨hstep', hcount', htagged'⟩ :=
            ih hstep.shape hstep.next_ne_nil fun j hj => hsize ▸ hl j hj
          refine ⟨hstep.trans hstep', ?_,
            List.forall_mem_cons.mpr ⟨hstep'.tagged htagged, htagged'⟩⟩
          dsimp only
          rw [hcount', hcount, Nat.add_assoc]

/-- Between calls, the first table also counts what it has copied. -/
structure Invariant (hash : K → Word) (tables : Tables K) : Prop where
  shape : Shape hash tables
  progress : tables.impl.numEntriesCopied = tables.impl.taggedCount

/-- The invariant holds behind an unlinked table. -/
theorem Invariant.tail (h : Invariant hash ⟨t, nht :: rest⟩) : Invariant hash ⟨nht, rest⟩ where
  shape := h.shape.tail
  progress :=
    have hquiet := h.shape.quiet nht List.mem_cons_self
    hquiet.none_copied.trans hquiet.taggedCount_eq.symm

/-- Counting the progress keeps the shape. -/
theorem Shape.setProgress (h : Shape hash tables) (hnext : tables.next ≠ []) {copyScan : Nat}
    (haligned : entriesPerCopyChunk ∣ copyScan) (n : Nat) :
    Shape hash (tables.setProgress copyScan n) := by
  have hwf := List.forall_mem_cons.mp h.wf
  have hpasses := List.pairwise_cons.mp h.passes
  have hscales := List.pairwise_cons.mp h.scales
  exact
    { wf := List.forall_mem_cons.mpr
        ⟨⟨hwf.1.placed, hwf.1.copied, hwf.1.empty, hwf.1.kept, haligned, hwf.1.refs⟩, hwf.2⟩
      quiet := h.quiet
      passes := List.pairwise_cons.mpr ⟨hpasses.1, hpasses.2⟩
      scales := List.pairwise_cons.mpr ⟨hscales.1, hscales.2⟩
      alone := fun hnil => absurd hnil hnext }

/-- Counting the progress keeps the contents. -/
theorem getFrom_setProgress (tables : Tables K) (copyScan n : Nat) (k : K) :
    getFrom hash k (tables.setProgress copyScan n).all = getFrom hash k tables.all :=
  rfl

/-- Help with the copying changes no value. -/
structure Helped (hash : K → Word) (tables tables' : Tables K) : Prop where
  invariant : Invariant hash tables'
  next_ne_nil : tables'.next ≠ []
  same : ∀ k, getFrom hash k tables'.all = getFrom hash k tables.all
  scale_eq : tables'.impl.scale = tables.impl.scale

/-- Some entries are copied, and counted. -/
theorem helped_copyEntries (hinv : Invariant hash tables) (hnext : tables.next ≠ []) {l : List Nat}
    (hl : ∀ i ∈ l, i < tables.impl.size) {st : Nat × Tables K}
    (hst : tables.copyEntries hash l = st) :
    Helped hash tables
        (st.2.setProgress st.2.impl.copyScan (st.2.impl.numEntriesCopied + st.1)) ∧
      st.2.impl.numEntriesCopied + st.1 = st.2.impl.taggedCount ∧
      st.2.impl.copyScan = tables.impl.copyScan ∧ st.2.impl.size = tables.impl.size ∧
      ∀ i ∈ l, isTagged (st.2.impl.value i) := by
  subst hst
  obtain ⟨hstep, hcount, htagged⟩ := copyEntries_spec hinv.shape hnext hl
  have hprogress : (tables.copyEntries hash l).2.impl.numEntriesCopied +
      (tables.copyEntries hash l).1 = (tables.copyEntries hash l).2.impl.taggedCount := by
    rw [hcount, hstep.numEntriesCopied_eq, hinv.progress]
  have haligned := (hstep.shape.wf _ List.mem_cons_self).aligned
  exact ⟨⟨⟨hstep.shape.setProgress hstep.next_ne_nil haligned _, hprogress⟩, hstep.next_ne_nil,
    fun k => (getFrom_setProgress _ _ _ k).trans (hstep.same k), hstep.scale_eq⟩, hprogress,
    hstep.copyScan_eq, congrArg (2 ^ ·) hstep.scale_eq, htagged⟩

omit [DecidableEq K] in
/-- The next chunk of a table ends within it. -/
theorem lt_size_of_mem_chunk {x i : Nat} (haligned : entriesPerCopyChunk ∣ x)
    (hi : i ∈ (List.range entriesPerCopyChunk).map fun i => x % t.size + i) : i < t.size := by
  obtain ⟨j, hj, rfl⟩ := List.mem_map.mp hi
  obtain ⟨m, hm⟩ := t.four_dvd_size
  obtain ⟨n, rfl⟩ := haligned
  have hpos : 0 < t.size := Nat.two_pow_pos _
  have hlt : n % m < m := Nat.mod_lt n (by omega)
  have hj : j < entriesPerCopyChunk := List.mem_range.mp hj
  rw [hm, entriesPerCopyChunk, Nat.mul_mod_mul_left]
  rw [entriesPerCopyChunk] at hj
  omega

/-- Two rounds of chunks, and the whole table after them. -/
theorem helpCopy_spec (hinv : Invariant hash tables) (hnext : tables.next ≠ []) :
    let r := tables.helpCopy hash
    Helped hash tables r.2 ∧
      (r.1 = true → ∀ i < r.2.impl.size, isTagged (r.2.impl.value i)) ∧
      (r.1 = false → tables.impl.copyScan < 2 ^ (tables.impl.scale + 1) ∧
        r.2.impl.copyScan = tables.impl.copyScan + entriesPerCopyChunk) := by
  dsimp only
  unfold helpCopy
  dsimp only
  split
  next hdone =>
    refine ⟨⟨hinv, hnext, fun _ => rfl, rfl⟩, fun _ => ?_, fun h => by cases h⟩
    exact Implementation.taggedCount_eq_size_iff.mp (hinv.progress.symm.trans hdone)
  next =>
    split
    next hpanic =>
      generalize hst : tables.copyEntries hash (List.range tables.impl.size) = st
      obtain ⟨hhelped, hcount, -, hsize, htagged⟩ := helped_copyEntries hinv hnext
        (fun i hi => List.mem_range.mp hi) hst
      have hall : ∀ i < st.2.impl.size, isTagged (st.2.impl.value i) :=
        fun i hi => htagged i (List.mem_range.mpr (hsize ▸ hi))
      refine ⟨hhelped, fun _ => hall, fun h => absurd ?_ (of_decide_eq_false h)⟩
      rw [hcount, Implementation.taggedCount_eq_size_iff.mpr hall, hsize]
    next hchunk =>
      have haligned := (hinv.shape.wf _ List.mem_cons_self).aligned
      have hinv' : Invariant hash (tables.setProgress
          (tables.impl.copyScan + entriesPerCopyChunk) tables.impl.numEntriesCopied) :=
        ⟨hinv.shape.setProgress hnext (Nat.dvd_add haligned (Nat.dvd_refl _)) _, hinv.progress⟩
      generalize hst : copyEntries hash _ _ = st
      obtain ⟨hhelped, hcount, hscan, hsize, -⟩ := helped_copyEntries hinv' hnext
        (fun i hi => lt_size_of_mem_chunk (t := tables.impl) haligned hi) hst
      refine ⟨⟨hhelped.invariant, hhelped.next_ne_nil, fun k => ?_, hhelped.scale_eq⟩, fun h => ?_,
        fun _ => ⟨not_le.mp hchunk, hscan⟩⟩
      · rw [hhelped.same k]
        exact getFrom_setProgress tables _ _ k
      · refine Implementation.taggedCount_eq_size_iff.mp (hcount.symm.trans ?_)
        exact (of_decide_eq_true h).trans hsize.symm

/-- Help with the copying, and a table that is done with it is unlinked. -/
theorem helpUnlink_spec (hinv : Invariant hash tables) :
    Invariant hash (tables.helpUnlink hash) ∧
      ∀ k, getFrom hash k (tables.helpUnlink hash).all = getFrom hash k tables.all := by
  unfold helpUnlink
  split
  next => exact ⟨hinv, fun _ => rfl⟩
  next _ _ hnext =>
    have hspec := helpCopy_spec hinv (by rw [hnext]; exact List.cons_ne_nil _ _)
    generalize tables.helpCopy hash = r at hspec
    obtain ⟨done, ⟨t, next⟩⟩ := r
    obtain ⟨hhelped, hdone, -⟩ := hspec
    obtain ⟨nht, rest, rfl⟩ := List.exists_cons_of_ne_nil hhelped.next_ne_nil
    have hshape := hhelped.invariant.shape
    cases done with
    | false => exact ⟨hhelped.invariant, hhelped.same⟩
    | true =>
        refine ⟨hhelped.invariant.tail, fun k => ?_⟩
        have hplaced := (hshape.wf t List.mem_cons_self).placed
        rw [← hhelped.same k]
        exact (getFrom_cons_of_absent hshape
          (Implementation.answer_of_tagged hplaced (hdone rfl))).symm

/-! ## Calls -/

/-- A call keeps the counts. -/
theorem Outcome.invariant (h : Outcome hash k v tables tables') (hinv : Invariant hash tables) :
    Invariant hash tables' where
  shape := h.shape
  progress := by rw [h.puts.numEntriesCopied_eq, h.puts.taggedCount_eq, hinv.progress]

end

/-! ## The abstract map -/

/-- What a call does on a map, with the null pointer for keys without a value. -/
def callMap (m : K → Word) : Call K → Word × (K → Word)
  | .get k => (m k, m)
  | .remove k => (m k, Function.update m k doesNotExist)
  | .compareAndSwap k expectedVal newVal _ =>
      (m k, if Fits expectedVal (m k) then Function.update m k newVal else m)

/-- The answers of a list of calls on a map, and the map after them. -/
def runMap (m : K → Word) : List (Call K) → List Word × (K → Word)
  | [] => ([], m)
  | c :: calls =>
      let (result, m) := callMap m c
      let (results, m) := runMap m calls
      (result :: results, m)

/-- A call whose new value loses nothing when its tag is stripped, and that does not expect the
tombstone, which is not a value. -/
def Keeps : Call K → Prop
  | .compareAndSwap _ expectedVal newVal _ =>
      expectedVal ≠ tombStone ∧ stripTag newVal = newVal
  | _ => True

variable {hash : K → Word} {tables : Tables K} {m : K → Word}

/-- A swap does to the tables what it does to the map. -/
theorem compareAndSwapFrom_map (hinv : Invariant hash tables)
    (hm : ∀ k, getFrom hash k tables.all = m k) {expectedVal newVal : Word}
    (he : expectedVal ≠ tombStone) (hn : Storable newVal) (k : K) :
    let r := compareAndSwapFrom hash k expectedVal newVal tables.impl tables.next
    oldValue r.1 = m k ∧ Invariant hash r.2 ∧ ∀ k', getFrom hash k' r.2.all =
      (if Fits expectedVal (m k) then Function.update m k newVal else m) k' := by
  obtain ⟨hold, houtcome⟩ := spec_compareAndSwapFrom (k := k) hinv.shape he hn
  have hk : getFrom hash k (tables.impl :: tables.next) = m k := hm k
  rw [hk] at hold houtcome
  refine ⟨hold, houtcome.invariant hinv, fun k' => ?_⟩
  by_cases hne : k' = k
  · subst hne
    rw [houtcome.self, afterCall]
    split
    · rw [Function.update_self]
    · rfl
  · refine (houtcome.others hne).trans ((hm k').trans ?_)
    split
    · rw [Function.update_of_ne hne]
    · rfl

/-- A call does to the tables what it does to the map. -/
theorem call_spec (hinv : Invariant hash tables) (hm : ∀ k, getFrom hash k tables.all = m k)
    {c : Call K} (hc : Keeps c) :
    (tables.call hash c).1 = (callMap m c).1 ∧ Invariant hash (tables.call hash c).2 ∧
      ∀ k, getFrom hash k (tables.call hash c).2.all = (callMap m c).2 k := by
  cases c with
  | get k => exact ⟨hm k, hinv, hm⟩
  | remove k =>
      have he : CasExpect.whatever ≠ tombStone := by decide
      obtain ⟨hold, hinv', hm'⟩ := compareAndSwapFrom_map hinv hm he (Or.inl rfl) k
      have hfits : Fits CasExpect.whatever (m k) := Or.inl rfl
      rw [if_pos hfits] at hm'
      exact ⟨hold, hinv', hm'⟩
  | compareAndSwap k expectedVal newVal accepted =>
      obtain ⟨he, hstrip⟩ := hc
      obtain ⟨hinv', hsame⟩ := helpUnlink_spec hinv
      exact compareAndSwapFrom_map hinv' (fun k => (hsame k).trans (hm k)) he
        (Or.inr ⟨accepted.1, accepted.2.2, hstrip⟩) k

theorem run_spec {calls : List (Call K)} (hinv : Invariant hash tables)
    (hm : ∀ k, getFrom hash k tables.all = m k) (hcalls : ∀ c ∈ calls, Keeps c) :
    (tables.run hash calls).1 = (runMap m calls).1 ∧ Invariant hash (tables.run hash calls).2 ∧
      ∀ k, getFrom hash k (tables.run hash calls).2.all = (runMap m calls).2 k := by
  induction calls generalizing tables m with
  | nil => exact ⟨rfl, hinv, hm⟩
  | cons c calls ih =>
      obtain ⟨hc, hcalls⟩ := List.forall_mem_cons.mp hcalls
      obtain ⟨hresult, hinv', hm'⟩ := call_spec hinv hm hc
      obtain ⟨hresults, hafter⟩ := ih hinv' hm' hcalls
      rw [run, runMap]
      exact ⟨congrArg₂ List.cons hresult hresults, hafter⟩

/-! ## The runs of the hash table -/

/-- The first table meets the invariant. -/
theorem invariant_new : Invariant hash (Tables.new : Tables K) where
  shape := shape_new _ _
  progress := (quiet_new _ _).taggedCount_eq.symm

/-- The first table is empty. -/
theorem getFrom_new (k : K) : getFrom hash k (Tables.new : Tables K).all = doesNotExist :=
  getFrom_cons_of_answer (answer_new _ _)

/-- Any calls from the empty table on. -/
theorem run_new_spec (hash : K → Word) {calls : List (Call K)} (hcalls : ∀ c ∈ calls, Keeps c) :
    (Tables.new.run hash calls).1 = (runMap (fun _ => doesNotExist) calls).1 ∧
      Invariant hash (Tables.new.run hash calls).2 ∧
      ∀ k, getFrom hash k (Tables.new.run hash calls).2.all =
        (runMap (fun _ => doesNotExist) calls).2 k :=
  run_spec invariant_new getFrom_new hcalls

/-- An entry that has the value of its key. -/
def Live (t : Implementation K) (i : Nat) (k : K) : Prop :=
  t.key i = some k ∧ ¬ isTagged (t.value i) ∧ oldValue (t.value i) ≠ doesNotExist

/-- A key has one entry in all tables. -/
theorem Shape.live_unique (hshape : Shape hash tables) {k : K} {n n' i i' : Nat}
    {t t' : Implementation K} (hn : tables.all[n]? = some t) (hn' : tables.all[n']? = some t')
    (hi : Live t i k) (hi' : Live t' i' k) : n = n' ∧ i = i' := by
  have hanswer : ∀ {t : Implementation K} {i : Nat}, t ∈ tables.all → Live t i k →
      t.answer hash k ≠ none := by
    intro t i ht hi
    rw [Implementation.answer_of_key ((hshape.wf t ht).placed i k hi.1) hi.1, if_neg hi.2.1]
    exact Option.some_ne_none _
  have hlt : ∀ {n n' i i' : Nat} {t t' : Implementation K}, tables.all[n]? = some t →
      tables.all[n']? = some t' → Live t i k → Live t' i' k → ¬ n < n' := by
    intro n n' i i' t t' hn hn' hi hi' hlt
    obtain ⟨hlen, rfl⟩ := List.getElem?_eq_some_iff.mp hn
    obtain ⟨hlen', rfl⟩ := List.getElem?_eq_some_iff.mp hn'
    exact hanswer (List.getElem_mem hlen) hi
      (List.pairwise_iff_getElem.mp hshape.passes n n' hlen hlen' hlt k ⟨i', hi'.1⟩)
  obtain rfl : n = n' := by
    rcases Nat.lt_trichotomy n n' with h | h | h
    · exact absurd h (hlt hn hn' hi hi')
    · exact h
    · exact absurd h (hlt hn' hn hi' hi)
  obtain rfl : t = t' := Option.some.inj (hn.symm.trans hn')
  exact ⟨rfl, (hshape.wf t (List.mem_of_getElem? hn)).placed.eq_of_key hi.1 hi'.1⟩

/-- Whatever calls there are, with any growth on the way: they return what a map returns, the
values afterwards are those of the map, and no key has two entries. -/
theorem run_eq (hash : K → Word) {calls : List (Call K)} (hcalls : ∀ c ∈ calls, Keeps c) :
    (Tables.new.run hash calls).1 = (runMap (fun _ => doesNotExist) calls).1 ∧
      (∀ k, (Tables.new.run hash calls).2.get hash k =
        (runMap (fun _ => doesNotExist) calls).2 k) ∧
      ∀ (k : K) (n n' i i' : Nat) (t t' : Implementation K),
        (Tables.new.run hash calls).2.all[n]? = some t →
        (Tables.new.run hash calls).2.all[n']? = some t' → Live t i k → Live t' i' k →
          n = n' ∧ i = i' := by
  obtain ⟨hresults, hinv, hm⟩ := run_new_spec hash hcalls
  exact ⟨hresults, hm, fun k n n' i i' t t' hn hn' hi hi' =>
    hinv.shape.live_unique hn hn' hi hi'⟩

/-- Keys that share a bucket of the smallest table get the same value one after the other, and
the first one is looked up in the end. -/
def bucketCalls (newVal : Word)
    (accepted : ¬ isTagged newVal ∧ newVal ≠ doesNotExist ∧ newVal ≠ tombStone) :
    List (Call Word) :=
  ((List.range 6).map fun i => .compareAndSwap (BitVec.ofNat 64 i <<< 32) CasExpect.doesNotExist
    newVal accepted) ++ [.get 0]

/-- The calls of the example are allowed. -/
theorem keeps_bucketCalls {newVal : Word}
    {accepted : ¬ isTagged newVal ∧ newVal ≠ doesNotExist ∧ newVal ≠ tombStone}
    (hstrip : stripTag newVal = newVal) : ∀ c ∈ bucketCalls newVal accepted, Keeps c := by
  intro c hc
  rcases List.mem_append.mp hc with hc | hc
  · obtain ⟨i, -, rfl⟩ := List.mem_map.mp hc
    exact ⟨by decide, hstrip⟩
  · rw [List.mem_singleton.mp hc]
    exact trivial

/-- The answers of the example. -/
theorem run_eq_bucketCalls :
    (Tables.new.run id (bucketCalls 8 (by decide))).1 =
      (runMap (fun _ => doesNotExist) (bucketCalls 8 (by decide))).1 :=
  (run_eq id (keeps_bucketCalls (by decide))).1

/-- An address above four gigabytes loses its upper half when it is copied. -/
theorem run_ne_bucketCalls :
    (Tables.new.run id (bucketCalls 0x100000008 (by decide))).1 ≠
      (runMap (fun _ => doesNotExist) (bucketCalls 0x100000008 (by decide))).1 := by
  decide +kernel

end Tables
end Lockfree
end OFlux
