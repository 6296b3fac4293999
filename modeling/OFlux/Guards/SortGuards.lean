import OFlux.Guards.Schedule

/-!
# Guards that are sorted once and for all

{lit}`sortGuards` sorts the guard references of a node by magic number, and marks them as completely
sorted if no number comes twice.  An event of such a node does not sort what it acquires.  Nothing
but the magic numbers then decides the comparison, so that a sort would change nothing, whatever
the modes, the late references and the keys are.

Main results:

- Theorem {lit}`completelySortedFrom_iff`: the mark says that the magic numbers ascend strictly.
- Theorem {lit}`sortedOrder_iff_acquisitionOrder`: the order without a sort is the only one that a
  sort can give.
- Theorem {lit}`Node.sortedOrder_iff_of_keyed`: this is so for the new events of a node.
-/

namespace OFlux
namespace Guards

variable {I K D : Type} (guards : GuardId → Guard)

/-- What {lit}`sortGuards` makes of the references of a node; references of one guard may end up
in any order. -/
structure SortGuards (refs guardRefs : List (GuardReference I K D)) (marked : Bool) : Prop where
  perm : guardRefs.Perm refs
  ascending : guardRefs.Pairwise fun left right =>
    (guards left.guard).magicNumber ≤ (guards right.guard).magicNumber
  marked_eq : marked =
    completelySortedFrom (-1) (guardRefs.map fun ref => (guards ref.guard).magicNumber)

/-- An event of a node: it has a held atomic for each guard reference, and the mark. -/
structure Event.OfNode (guardRefs : List (GuardReference I K D)) (marked : Bool)
    (event : Event I K D) : Prop where
  refs : event.holders.map HeldAtomic.ref = guardRefs
  isCompletelySorted : event.isCompletelySorted = marked

variable {guards}

/-- The references of a node are sorted as the code does. -/
theorem Node.sortGuards (node : Node guards I K D) :
    SortGuards guards node.guardRefs node.guardRefs node.isGuardsCompletelySorted :=
  ⟨List.Perm.refl _, node.ascending, rfl⟩

/-- A new event has the references of its node. -/
theorem Node.ofNode_newEvent (node : Node guards I K D) (input : I) :
    (node.newEvent input).OfNode node.guardRefs node.isGuardsCompletelySorted :=
  ⟨by simp [newEvent, Function.comp_def], rfl⟩

/-- Looking up the keys leaves an event one of its node. -/
theorem Event.OfNode.of_keyed [LinearOrder K] [Inhabited K] {st st' : Store I K D} {e : EventId}
    {guardRefs : List (GuardReference I K D)} {marked : Bool}
    (h : (st.events e).OfNode guardRefs marked) (hkeyed : Store.Keyed guards st e st') :
    (st'.events e).OfNode guardRefs marked :=
  ⟨hkeyed.refs.trans h.refs, hkeyed.isCompletelySorted.trans h.isCompletelySorted⟩

/-! ## Strictly ascending magic numbers -/

/-- The test finds strictly growing numbers. -/
theorem completelySortedFrom_iff {last : Int} {mns : List Nat} :
    completelySortedFrom last mns = true ↔ (∀ mn ∈ mns, last < mn) ∧ mns.Pairwise (· < ·) := by
  induction mns generalizing last with
  | nil => simp [completelySortedFrom]
  | cons mn mns ih =>
      simp only [completelySortedFrom, ge_iff_le, List.forall_mem_cons, List.pairwise_cons]
      by_cases hle : (mn : Int) ≤ last
      · have hnlt : ¬ last < (mn : Int) := Int.not_lt.mpr hle
        simp [hle, hnlt]
      · have hlt : last < (mn : Int) := Int.not_le.mp hle
        rw [if_neg hle, ih]
        constructor
        · rintro ⟨hall, hmns⟩
          exact ⟨⟨hlt, fun m hm => hlt.trans (hall m hm)⟩,
            fun m hm => Int.ofNat_lt.mp (hall m hm), hmns⟩
        · rintro ⟨-, hall, hmns⟩
          exact ⟨fun m hm => Int.ofNat_lt.mpr (hall m hm), hmns⟩

/-- The held atomics of an event of a marked node, as its references, have ascending numbers. -/
theorem Event.OfNode.ascending {refs guardRefs : List (GuardReference I K D)} {marked : Bool}
    {event : Event I K D} (hevent : event.OfNode guardRefs marked)
    (hsort : SortGuards guards refs guardRefs marked) (hmarked : marked = true) :
    (event.holders.map fun ha => (guards ha.ref.guard).magicNumber).Pairwise (· < ·) := by
  have hmns := (completelySortedFrom_iff.mp (hsort.marked_eq.symm.trans hmarked)).2
  rw [← hevent.refs, List.map_map] at hmns
  exact hmns

variable [LinearOrder K]

/-- A held atomic does not come before one with a smaller magic number. -/
theorem HeldAtomic.magicNumber_le_of_compare {left right : HeldAtomic I K D}
    (h : left.compare guards right false ≤ 0) :
    (guards left.ref.guard).magicNumber ≤ (guards right.ref.guard).magicNumber := by
  rcases (compare_nonpos_iff left right).mp h with hlt | ⟨heq, -⟩
  · exact hlt.le
  · exact heq.le

/-- Held atomics whose magic numbers ascend strictly have one sorted order, their own. -/
theorem sortedOrder_iff_of_ascending {holders order : List (HeldAtomic I K D)}
    (h : (holders.map fun ha => (guards ha.ref.guard).magicNumber).Pairwise (· < ·)) :
    Store.SortedOrder guards holders order ↔ order = holders := by
  have hself : holders.Pairwise fun left right => left.compare guards right false ≤ 0 :=
    (List.pairwise_map.mp h).imp fun hlt => (HeldAtomic.compare_nonpos_iff _ _).mpr (Or.inl hlt)
  have hnodup : (holders.map fun ha => (guards ha.ref.guard).magicNumber).Nodup :=
    h.imp Nat.ne_of_lt
  constructor
  · rintro ⟨hperm, hsorted⟩
    apply List.Perm.eq_of_pairwise _ hsorted hself hperm
    intro left right hleft hright hle hge
    exact List.inj_on_of_nodup_map hnodup (hperm.subset hleft) hright
      (Nat.le_antisymm (HeldAtomic.magicNumber_le_of_compare hle)
        (HeldAtomic.magicNumber_le_of_compare hge))
  · rintro rfl
    exact ⟨List.Perm.refl _, hself⟩

/-- When a new event of a marked node has looked up its keys, a sort would leave its held atomics
as they are. -/
theorem Node.sortedOrder_iff_of_keyed [Inhabited K] (node : Node guards I K D)
    (hmarked : node.isGuardsCompletelySorted = true) {input : I} {st st' : Store I K D}
    {e : EventId} (hnew : st.events e = node.newEvent input)
    (hkeyed : Store.Keyed guards st e st') (order : List (HeldAtomic I K D)) :
    Store.SortedOrder guards (st'.events e).holders order ↔ order = (st'.events e).holders := by
  have hevent : (st.events e).OfNode node.guardRefs node.isGuardsCompletelySorted :=
    hnew ▸ node.ofNode_newEvent input
  exact sortedOrder_iff_of_ascending ((hevent.of_keyed hkeyed).ascending node.sortGuards hmarked)

/-- For an event of a node that is marked, the order in which it acquires without a sort is the
one and only order that a sort can give, whatever its keys are. -/
theorem sortedOrder_iff_acquisitionOrder {refs guardRefs : List (GuardReference I K D)}
    {marked : Bool} (hsort : SortGuards guards refs guardRefs marked) (hmarked : marked = true)
    {event : Event I K D} (hevent : event.OfNode guardRefs marked)
    (order : List (HeldAtomic I K D)) :
    Store.SortedOrder guards event.holders order ↔
      order = Store.acquisitionOrder guards event := by
  have hflag : event.isCompletelySorted = true := hevent.isCompletelySorted.trans hmarked
  rw [Store.acquisitionOrder, if_pos hflag]
  exact sortedOrder_iff_of_ascending (hevent.ascending hsort hmarked)

/-- A reference to a guard of its own magic number, without a translator. -/
def plainRef (guard wtype : Nat) (isLate : Bool) : GuardReference Unit Nat Unit where
  guard := guard
  guardFn := none
  wtype := wtype
  isLate := isLate
  lexicalIndex := 0

/-- The keys are against the order of the guards. -/
def mixedEvent : Event Unit Nat Unit where
  input := ()
  holders := [{ ref := plainRef 1 WType.write true, key := some 7 },
    { ref := plainRef 2 WType.read false, key := some 3 }]
  isCompletelySorted := true

theorem sortedOrder_mixedEvent :
    Store.SortedOrder (keyedGuards .readWrite) mixedEvent.holders mixedEvent.holders := by
  have hsort : SortGuards (keyedGuards .readWrite)
      [plainRef 2 WType.read false, plainRef 1 WType.write true]
      [plainRef 1 WType.write true, plainRef 2 WType.read false] true :=
    ⟨List.Perm.swap _ _ _, by simp [plainRef, keyedGuards], by decide⟩
  exact (sortedOrder_iff_acquisitionOrder hsort rfl ⟨rfl, rfl⟩ _).mpr rfl

end Guards
end OFlux
