import OFlux.Compiler.PluginXml
import OFlux.Frontend.CopyCode
import OFlux.Frontend.Unify
import OFlux.Library.Fallible

/-!
# Arguments of conditions

The conditions of a case are tested on the output structure of the node in front of it, so
each condition that is written for a parameter of the successor is given the number of an
output field.  Where the lists of parameters are unlike, the generated code also converts the
output structure to the input structure of the successor, and the number should be that of
the field whose value the parameter gets.

Main results:

- Theorem {lit}`genCond'_eq_ok`: the conditions of a case, from the numbers of its arguments.
- Theorem {lit}`numberedCopy_fields`: the numbered copies are those of the generated code.
- Theorem {lit}`conversionAgrees_iff`: exactly when numbers and conversion agree.
-/

namespace OFlux
namespace Frontend
namespace ConditionArguments

open Compiler (ConditionElement CaseElement XMLConversion)
open CopyCode Library

/-! ## Conditions of a case -/

/-- For each argument a conjunction of conditions, with whether they are negated. -/
abbrev CanonCondition := List (List (String × Bool))

/-- The parameter with that number, counted from 1; all numbers below 1 give the first one. -/
def pick (j : Nat) : List DeclFormal → Option DeclFormal
  | h :: t => if j ≤ 1 then some h else pick (j - 1) t
  | [] => none

/-- The number of the output field with that name. -/
def findArgn (tUh uh name : String) (i : Nat) : List DeclFormal → Except XMLConversion Nat
  | h :: t => if h.name = name then .ok i else findArgn tUh uh name (i + 1) t
  | [] => .error ("can't find arg conversion " ++ tUh ++ " -> " ++ uh)

/-- The hash of a parameter list, with the list. -/
abbrev HashedDecls := String × List DeclFormal

/-- The number in the output structure for a number of the target: the same number where the
structures have one hash, and that of the field of the same name otherwise. -/
def convertArgn (target output : HashedDecls) (j : Nat) : Except XMLConversion Nat :=
  if target.1 = output.1 then .ok j
  else
    match pick j target.2 with
    | some df => findArgn target.1 output.1 df.name 1 output.2
    | none => .ok j

/-- A condition with the number of its argument. -/
def conditionOn (uH : String) (argno : Nat) (condition : String × Bool) : ConditionElement where
  name := condition.1
  argno := Nat.repr argno
  isnegated := if condition.2 then "true" else "false"
  unionhash := uH

/-- The conditions of a case from a column on, in reverse. -/
def genCond' (target output : HashedDecls) (i : Nat) :
    CanonCondition → Except XMLConversion (List ConditionElement)
  | [] => .ok []
  | h :: t => do
      let conditions ← h.mapM fun condition => do
        return conditionOn output.1 (← convertArgn target output i) condition
      let rest ← genCond' target output (i + 1) t
      return conditions ++ rest

/-- The conditions of a case, in the order of the columns. -/
def genCond (target output : HashedDecls) (i : Nat) (ccond : CanonCondition) :
    Except XMLConversion (List ConditionElement) := do
  return (← genCond' target output i ccond).reverse

section

-- the digest of a parameter list without its positions
variable (digest : List StrippedDf → String)

/-- The hash of a structure; only types and names go into it. -/
def hashDeclFormalList (dfl : List DeclFormal) : String :=
  digest (dfl.map stripDf)

/-- The list that the arguments of a condition are looked up in. -/
def targetDecls (inputs nOutDfl : List DeclFormal) (nargs : Nat) : HashedDecls :=
  if nargs = nOutDfl.length then (hashDeclFormalList digest nOutDfl, nOutDfl)
  else (hashDeclFormalList digest inputs, inputs)

/-- The case for a successor with the given inputs. -/
def successorCase (n : String) (inputs nOutDfl : List DeclFormal) (ccond : CanonCondition) :
    Except XMLConversion CaseElement := do
  let conditions ← genCond (targetDecls digest inputs nOutDfl ccond.length)
    (hashDeclFormalList digest nOutDfl, nOutDfl) 1 ccond
  return { nodetarget := n, conditions }

end

/-- The conditions, where the arguments are known by their numbers. -/
def conditionsOn (uH : String) (argnos : List Nat) (ccond : CanonCondition) :
    List ConditionElement :=
  ((argnos.zip ccond).flatMap fun p => p.2.map (conditionOn uH p.1))

/-! ## Numbers of arguments -/

variable {target output : HashedDecls} {i : Nat} {argnos : List Nat} {ccond : CanonCondition}

/-- The conditions when every argument is converted. -/
theorem genCond'_eq_ok (hlength : ccond.length = argnos.length)
    (h : ∀ p ∈ argnos.zipIdx i, convertArgn target output p.2 = .ok p.1) :
    genCond' target output i ccond = .ok (conditionsOn output.1 argnos ccond) := by
  induction ccond generalizing argnos i with
  | nil => simp [genCond', conditionsOn]
  | cons cs t ih =>
      cases argnos with
      | nil => cases hlength
      | cons a argnos =>
          rw [List.zipIdx_cons, List.forall_mem_cons] at h
          have hhead : cs.mapM (fun condition => do
              return conditionOn output.1 (← convertArgn target output i) condition) =
              Except.ok (cs.map (conditionOn output.1 a)) := by
            rw [Fallible.mapM_eq_ok_iff, List.forall₂_map_right_iff, List.forall₂_same, h.1]
            exact fun _ _ => rfl
          rw [genCond', hhead, ih (Nat.succ.inj hlength) h.2]
          rfl

/-- The conditions, where only the arguments with a condition need to have numbers. -/
theorem exists_genCond' {number : Nat → Nat}
    (h : ∀ k, ∀ q ∈ ccond.getD k [], convertArgn target output (i + k) = .ok (number k)) :
    ∃ conditions, genCond' target output i ccond = .ok conditions ∧
      ∀ e, e ∈ conditions ↔ ∃ k, ∃ q ∈ ccond.getD k [], e = conditionOn output.1 (number k) q := by
  induction ccond generalizing i number with
  | nil => exact ⟨[], rfl, by simp⟩
  | cons cs t ih =>
      have htail : ∀ k, ∀ q ∈ t.getD k [],
          convertArgn target output (i + 1 + k) = .ok (number (k + 1)) := by
        intro k q hq
        rw [Nat.add_assoc, Nat.add_comm 1 k]
        exact h (k + 1) q hq
      obtain ⟨rest, hrest, hmem⟩ := ih htail
      have hhead : cs.mapM (fun condition => do
          return conditionOn output.1 (← convertArgn target output i) condition) =
          Except.ok (cs.map (conditionOn output.1 (number 0))) := by
        rw [Fallible.mapM_eq_ok_iff, List.forall₂_map_right_iff, List.forall₂_same]
        intro q hq
        rw [show convertArgn target output i = .ok (number 0) from h 0 q hq]
        rfl
      refine ⟨cs.map (conditionOn output.1 (number 0)) ++ rest, ?_, fun e => ?_⟩
      · rw [genCond', hhead, hrest]
        rfl
      · rw [List.mem_append, hmem e, List.mem_map]
        constructor
        · rintro (⟨q, hq, rfl⟩ | ⟨k, q, hq, rfl⟩)
          · exact ⟨0, q, hq, rfl⟩
          · exact ⟨k + 1, q, hq, rfl⟩
        · rintro ⟨k, q, hq, rfl⟩
          cases k with
          | zero => exact Or.inl ⟨q, hq, rfl⟩
          | succ k => exact Or.inr ⟨k, q, hq, rfl⟩

theorem eq_of_repr_eq {m n : Nat} (h : Nat.repr m = Nat.repr n) : m = n := by
  rw [← Nat.ofDigitChars_ten_toDigits (n := m), ← Nat.ofDigitChars_ten_toDigits (n := n),
    ← Nat.toList_repr, ← Nat.toList_repr, h]

/-- One condition on every argument shows all the numbers. -/
theorem convertArgn_of_genCond' {probe : String × Bool}
    (h : genCond' target output i (argnos.map fun _ => [probe]) =
      .ok (conditionsOn output.1 argnos (argnos.map fun _ => [probe]))) :
    ∀ p ∈ argnos.zipIdx i, convertArgn target output p.2 = .ok p.1 := by
  induction argnos generalizing i with
  | nil => simp
  | cons a argnos ih =>
      rw [List.map_cons, genCond'] at h
      obtain ⟨conditions, hconditions, h⟩ := Fallible.bind_eq_ok.mp h
      obtain ⟨rest, hrest, h⟩ := Fallible.bind_eq_ok.mp h
      obtain ⟨element, helement, rfl⟩ : ∃ element, (do
          return conditionOn output.1 (← convertArgn target output i) probe) =
            Except.ok element ∧ conditions = [element] := by
        cases Fallible.mapM_eq_ok_iff.mp hconditions with
        | cons helement hnil =>
            cases hnil
            exact ⟨_, helement, rfl⟩
      obtain ⟨k, hk, helement⟩ := Fallible.bind_eq_ok.mp helement
      cases helement
      simp only [pure, Except.pure, Except.ok.injEq, conditionsOn, List.zip_cons_cons,
        List.flatMap_cons, List.map_cons, List.map_nil, List.singleton_append,
        List.cons.injEq] at h
      have hka : k = a := eq_of_repr_eq (congrArg ConditionElement.argno h.1)
      rw [List.zipIdx_cons, List.forall_mem_cons]
      refine ⟨hka ▸ hk, ih ?_⟩
      rw [hrest, h.2]
      rfl

/-! ## Numbers and positions -/

/-- The field at a position. -/
theorem pick_of_mem_zipIdx {k : Nat} {l : List DeclFormal} {p : DeclFormal × Nat}
    (h : p ∈ l.zipIdx (k + 1)) : pick (p.2 - k) l = some p.1 := by
  induction l generalizing k with
  | nil => cases h
  | cons x l ih =>
      rw [List.zipIdx_cons, List.mem_cons] at h
      rcases h with rfl | h
      · simp [pick]
      · have hle : k + 1 + 1 ≤ p.2 := List.le_snd_of_mem_zipIdx h
        rw [pick, if_neg (by omega), show p.2 - k - 1 = p.2 - (k + 1) by omega]
        exact ih h

/-- The argument found is the first field of the name. -/
theorem findArgn_eq_ok_iff {tUh uh name : String} {k : Nat} {l : List DeclFormal} :
    findArgn tUh uh name i l = .ok k ↔
      ((l.zipIdx i).find? fun p => p.1.name = name).map Prod.snd = some k := by
  induction l generalizing i with
  | nil => simp [findArgn]
  | cons x l ih =>
      rw [findArgn, List.zipIdx_cons, List.find?_cons]
      by_cases h : x.name = name
      · simp [h]
      · simpa [h] using ih

/-- Of two lists that differ, a parameter has the number of its name. -/
theorem convertArgn_of_ne (hne : target.1 ≠ output.1) {p : DeclFormal × Nat}
    (hp : p ∈ target.2.zipIdx 1) {k : Nat} :
    convertArgn target output p.2 = .ok k ↔
      ((output.2.zipIdx 1).find? fun q => q.1.name = p.1.name).map Prod.snd = some k := by
  have hpick : pick p.2 target.2 = some p.1 := pick_of_mem_zipIdx (k := 0) hp
  rw [convertArgn, if_neg hne, hpick]
  exact findArgn_eq_ok_iff

/-! ## Agreement -/

/-- The copies between numbered fields, from target to source. -/
def numberedCopy (tDecls fDecls : List DeclFormal) :
    Option (List ((DeclFormal × Nat) × (DeclFormal × Nat))) :=
  copyAssignments Prod.fst (tDecls.zipIdx 1) (fDecls.zipIdx 1)

/-- What is expected of a successor: there is a conversion, and a condition on one of its
parameters has the number of the output field that is copied into that parameter. -/
def ConversionAgrees (digest : List StrippedDf → String) (tlIn tlOut : List DeclFormal) : Prop :=
  ∃ assignments argnos, numberedCopy tlIn tlOut = some assignments ∧
    argnos.length = tlIn.length ∧
    (∀ p ∈ argnos.zipIdx 1, (p.2, p.1) ∈ assignments.map (Prod.map Prod.snd Prod.snd)) ∧
    ∀ n ccond, ccond.length = tlIn.length →
      successorCase digest n tlIn tlOut ccond = .ok
        { nodetarget := n
          conditions := (conditionsOn (hashDeclFormalList digest tlOut) argnos ccond).reverse }

/-- There are more outputs than inputs, and the first output with the name of an input has
its type and modifier and is the only one of them, or the same declaration. -/
structure NamesDetermine (tlIn tlOut : List DeclFormal) : Prop where
  shorter : tlIn.length < tlOut.length
  distinct : (tlIn.map DeclFormal.name).Nodup
  own : ∀ x ∈ tlIn, ∃ y, tlOut.find? (fun d => d.name = x.name) = some y ∧
    y.ctype = x.ctype ∧ y.ctypemod = x.ctypemod ∧
    (y = x ∨ tlOut.countP (fun d => stripDf d = stripDf x) = 1)

/-- Without their numbers, these are the copies of the generated code. -/
theorem numberedCopy_fields (tDecls fDecls : List DeclFormal) :
    (numberedCopy tDecls fDecls).map (List.map (Prod.map Prod.fst Prod.fst)) =
      copyAssignments id tDecls fDecls := by
  have hmap := copyAssignments_map id Prod.fst (tDecls.zipIdx 1) (fDecls.zipIdx 1)
  rw [List.zipIdx_map_fst, List.zipIdx_map_fst] at hmap
  exact hmap

variable {digest : List StrippedDf → String} {tlIn tlOut : List DeclFormal}

/-- The case written when every argument is converted. -/
theorem successorCase_eq_ok {n : String} {conditions : List ConditionElement} :
    successorCase digest n tlIn tlOut ccond =
        .ok { nodetarget := n, conditions := conditions.reverse } ↔
      genCond' (targetDecls digest tlIn tlOut ccond.length)
        (hashDeclFormalList digest tlOut, tlOut) 1 ccond = .ok conditions := by
  unfold successorCase genCond
  cases genCond' (targetDecls digest tlIn tlOut ccond.length)
      (hashDeclFormalList digest tlOut, tlOut) 1 ccond with
  | error e => exact iff_of_false (fun h => by cases h) (fun h => by cases h)
  | ok conditions' => simp [bind, Except.bind, pure, Except.pure]

/-- The numbers of the arguments, whatever the conditions are. -/
theorem forall_successorCase_iff (hlength : argnos.length = tlIn.length) :
    (∀ n ccond, ccond.length = tlIn.length →
      successorCase digest n tlIn tlOut ccond = .ok
        { nodetarget := n
          conditions := (conditionsOn (hashDeclFormalList digest tlOut) argnos ccond).reverse }) ↔
      ∀ p ∈ argnos.zipIdx 1, convertArgn (targetDecls digest tlIn tlOut tlIn.length)
        (hashDeclFormalList digest tlOut, tlOut) p.2 = .ok p.1 := by
  constructor
  · intro h
    have hprobe := h "" (argnos.map fun _ => [("", false)]) (by simpa using hlength)
    rw [successorCase_eq_ok, List.length_map, hlength] at hprobe
    exact convertArgn_of_genCond' hprobe
  · intro h n ccond hccond
    rw [successorCase_eq_ok, hccond]
    exact genCond'_eq_ok (hccond.trans hlength.symm) h

/-- A field and its number are known from the number. -/
theorem eq_of_mem_zipIdx {l : List DeclFormal} {p q : DeclFormal × Nat} (hp : p ∈ l.zipIdx 1)
    (hq : q ∈ l.zipIdx 1) (h : p.2 = q.2) : p = q := by
  have hfst : p.1 = q.1 := by
    rw [List.fst_eq_of_mem_zipIdx hp, List.fst_eq_of_mem_zipIdx hq]
    simp only [h]
  exact Prod.ext hfst h

/-- Positions tell fields apart. -/
theorem nodup_zipIdx (l : List DeclFormal) : (l.zipIdx 1).Nodup := by
  have hpositions : ((l.zipIdx 1).map Prod.snd).Nodup := by
    rw [List.zipIdx_map_snd]
    exact List.nodup_range'
  exact hpositions.of_map _

/-- The copy assigns fields of the two lists. -/
theorem numberedCopy_mem {assignments : List ((DeclFormal × Nat) × (DeclFormal × Nat))}
    (h : numberedCopy tlIn tlOut = some assignments) :
    ∀ p ∈ assignments, p.1 ∈ tlIn.zipIdx 1 ∧ p.2 ∈ tlOut.zipIdx 1 ∧
      compatibleType p.1.1 p.2.1 = true := by
  obtain ⟨htargets, hsources, hcompatible, -, -⟩ := copyAssignments_eq_some h
  intro p hp
  exact ⟨htargets.subset (List.mem_map_of_mem hp), hsources.subset (List.mem_map_of_mem hp),
    hcompatible p hp⟩

/-- Between lists of one length every condition is tested on the field with the same number,
and where the conversion copies that field, the lists unify strongly. -/
theorem length_ne_of_agrees (hstrong : Unify.strongUnify tlIn tlOut ≠ .success .strong)
    (h : ConversionAgrees digest tlIn tlOut) : tlIn.length ≠ tlOut.length := by
  intro hlength
  obtain ⟨assignments, argnos, hcopy, hargnos, hcopied, hcases⟩ := h
  rw [forall_successorCase_iff hargnos, targetDecls, if_pos hlength] at hcases
  have hmem := numberedCopy_mem hcopy
  apply hstrong
  rw [Unify.strongUnify_eq_success_iff, List.forall₂_iff_get]
  refine ⟨hlength, fun i hin hout => ?_⟩
  have hi : (argnos.get ⟨i, hargnos ▸ hin⟩, 1 + i) ∈ argnos.zipIdx 1 := by
    simp [List.mk_mem_zipIdx_iff_le_and_getElem?_sub]
  obtain ⟨p, hp, heq⟩ := List.mem_map.mp (hcopied _ hi)
  have hsame : argnos.get ⟨i, hargnos ▸ hin⟩ = 1 + i := by
    have hcase := hcases _ hi
    rw [convertArgn, if_pos rfl] at hcase
    exact (Except.ok.inj hcase).symm
  have hp1 : p.1.2 = 1 + i := congrArg Prod.fst heq
  have hp2 : p.2.2 = 1 + i := (congrArg Prod.snd heq).trans hsame
  obtain ⟨hin', hout', hcompatible⟩ := hmem p hp
  have htin : p.1.1 = tlIn.get ⟨i, hin⟩ := by
    rw [List.fst_eq_of_mem_zipIdx hin']
    simp [hp1]
  have htout : p.2.1 = tlOut.get ⟨i, hout⟩ := by
    rw [List.fst_eq_of_mem_zipIdx hout']
    simp [hp2]
  have hkind := compatibleType_iff.mp hcompatible
  rw [htin, htout] at hkind
  simp only [kind, stripDf, Prod.mk.injEq] at hkind
  exact Unify.unifySingle_of_same hkind.2 hkind.1

/-- The first output with the name of an input. -/
def firstNamed (tlOut : List DeclFormal) (x : DeclFormal) : Option (DeclFormal × Nat) :=
  (tlOut.zipIdx 1).find? fun q => q.1.name = x.name

/-- The first field of a name. -/
theorem firstNamed_fst {x : DeclFormal} {y : DeclFormal × Nat}
    (h : firstNamed tlOut x = some y) :
    tlOut.find? (fun d => d.name = x.name) = some y.1 ∧ y ∈ tlOut.zipIdx 1 := by
  refine ⟨?_, List.mem_of_find?_eq_some h⟩
  rw [← List.zipIdx_map_fst 1 tlOut, List.find?_map]
  exact congrArg (Option.map Prod.fst) h

theorem exists_firstNamed {x y : DeclFormal}
    (h : tlOut.find? (fun d => d.name = x.name) = some y) :
    ∃ k, firstNamed tlOut x = some (y, k) := by
  rw [← List.zipIdx_map_fst 1 tlOut, List.find?_map] at h
  obtain ⟨q, hq, rfl⟩ := Option.map_eq_some_iff.mp h
  exact ⟨q.2, hq⟩

/-- Between lists of different lengths, numbers and conversion agree if the first output with
the name of an input is copied into it. -/
theorem conversionAgrees_iff_firstNamed (hlength : tlIn.length ≠ tlOut.length)
    (hhash : hashDeclFormalList digest tlIn ≠ hashDeclFormalList digest tlOut) :
    ConversionAgrees digest tlIn tlOut ↔ ∃ assignments, numberedCopy tlIn tlOut = some assignments ∧
      ∀ x ∈ tlIn.zipIdx 1, ∃ y, firstNamed tlOut x.1 = some y ∧ (x, y) ∈ assignments := by
  have htarget : targetDecls digest tlIn tlOut tlIn.length =
      (hashDeclFormalList digest tlIn, tlIn) := if_neg hlength
  constructor
  · rintro ⟨assignments, argnos, hcopy, hargnos, hcopied, hcases⟩
    rw [forall_successorCase_iff hargnos, htarget] at hcases
    refine ⟨assignments, hcopy, fun x hx => ?_⟩
    obtain ⟨a, ha⟩ : ∃ a, (a, x.2) ∈ argnos.zipIdx 1 := by
      have hx2 : x.2 ∈ (argnos.zipIdx 1).map Prod.snd := by
        rw [List.zipIdx_map_snd, hargnos, ← List.zipIdx_map_snd 1 tlIn]
        exact List.mem_map_of_mem hx
      obtain ⟨p, hp, heq⟩ := List.mem_map.mp hx2
      exact ⟨p.1, heq ▸ hp⟩
    obtain ⟨y, hy, hya⟩ := Option.map_eq_some_iff.mp
      ((convertArgn_of_ne hhash hx).mp (hcases _ ha))
    obtain ⟨p, hp, heq⟩ := List.mem_map.mp (hcopied _ ha)
    obtain ⟨hin, hout, -⟩ := numberedCopy_mem hcopy p hp
    have hp1 : p.1 = x := eq_of_mem_zipIdx hin hx (congrArg Prod.fst heq)
    have hp2 : p.2 = y :=
      eq_of_mem_zipIdx hout (firstNamed_fst hy).2 ((congrArg Prod.snd heq).trans hya.symm)
    refine ⟨y, hy, ?_⟩
    rw [← hp1, ← hp2]
    exact hp
  · rintro ⟨assignments, hcopy, hfirst⟩
    let number x := ((firstNamed tlOut x).map Prod.snd).getD 0
    have hnumbers : ∀ p ∈ (tlIn.map number).zipIdx 1, ∃ x ∈ tlIn.zipIdx 1, ∃ y,
        firstNamed tlOut x.1 = some y ∧ (x, y) ∈ assignments ∧ p = (y.2, x.2) := by
      intro p hp
      rw [List.zipIdx_map] at hp
      obtain ⟨x, hx, rfl⟩ := List.mem_map.mp hp
      obtain ⟨y, hy, hxy⟩ := hfirst x hx
      exact ⟨x, hx, y, hy, hxy, Prod.ext (by simp [number, hy]) rfl⟩
    refine ⟨assignments, tlIn.map number, hcopy, by simp, ?_, ?_⟩
    · intro p hp
      obtain ⟨x, -, y, -, hxy, rfl⟩ := hnumbers p hp
      exact List.mem_map_of_mem (f := Prod.map Prod.snd Prod.snd) hxy
    · rw [forall_successorCase_iff (by simp), htarget]
      intro p hp
      obtain ⟨x, hx, y, hy, -, rfl⟩ := hnumbers p hp
      exact (convertArgn_of_ne hhash hx).mpr (congrArg (Option.map Prod.snd) hy)

/-! ## The condition on the names -/

/-- A weaker search that meets the stronger finds the same. -/
theorem find?_eq_of_imp {l : List (DeclFormal × Nat)} {q : DeclFormal × Nat}
    {P Q : DeclFormal × Nat → Prop} [DecidablePred P] [DecidablePred Q]
    (himp : ∀ a, P a → Q a) (hfind : l.find? (fun a => Q a) = some q) (hq : P q) :
    l.find? (fun a => P a) = some q := by
  rw [List.find?_eq_some_iff_append] at hfind ⊢
  obtain ⟨-, before, after, heq, hbefore⟩ := hfind
  refine ⟨by simpa using hq, before, after, heq, fun a ha => ?_⟩
  have hnot := hbefore a ha
  simp only [Bool.not_eq_true', decide_eq_false_iff_not] at hnot ⊢
  exact fun hP => hnot (himp a hP)

/-- Among the fields with the key of an input, the first one with its name is the first. -/
theorem ownFields_of_firstNamed {x y : DeclFormal × Nat} (hy : firstNamed tlOut x.1 = some y)
    (hkey : key Prod.fst y = key Prod.fst x) :
    ∃ rest, ownFields Prod.fst x (tlOut.zipIdx 1) = y :: rest := by
  have hhead : (ownFields Prod.fst x (tlOut.zipIdx 1)).head? = some y := by
    rw [ownFields, List.head?_filter]
    exact find?_eq_of_imp (P := fun q => key Prod.fst q = key Prod.fst x)
      (fun q hq => (stripDf_eq_iff.mp hq).1) hy hkey
  exact ⟨_, List.eq_cons_of_mem_head? hhead⟩

/-- How many fields are the same as one. -/
theorem length_ownFields (x : DeclFormal × Nat) :
    (ownFields Prod.fst x (tlOut.zipIdx 1)).length =
      tlOut.countP fun d => stripDf d = stripDf x.1 := by
  rw [ownFields, ← List.countP_eq_length_filter]
  conv_rhs => rw [← List.zipIdx_map_fst 1 tlOut, List.countP_map]
  rfl

/-- Positions do not change the keys. -/
theorem map_key_zipIdx (l : List DeclFormal) :
    (l.zipIdx 1).map (key Prod.fst) = l.map stripDf := by
  rw [← List.zipIdx_map_fst 1 l, List.map_map, List.zipIdx_map_fst]
  rfl

/-- When names determine the copy, fields are told apart. -/
theorem distinct_of_firstNamed {assignments : List ((DeclFormal × Nat) × (DeclFormal × Nat))}
    (hcopy : numberedCopy tlIn tlOut = some assignments)
    (hfirst : ∀ x ∈ tlIn.zipIdx 1, ∃ y, firstNamed tlOut x.1 = some y ∧ (x, y) ∈ assignments) :
    (tlIn.map DeclFormal.name).Nodup := by
  obtain ⟨-, ⟨l, hl, hsub⟩, -⟩ := copyAssignments_eq_some hcopy
  have hsources : (assignments.map Prod.snd).Nodup :=
    hl.nodup_iff.mp (hsub.nodup (nodup_zipIdx tlOut))
  rw [← List.zipIdx_map_fst 1 tlIn, List.map_map]
  refine (nodup_zipIdx tlIn).map_on fun x hx x' hx' hname => ?_
  obtain ⟨y, hy, hxy⟩ := hfirst x hx
  obtain ⟨y', hy', hxy'⟩ := hfirst x' hx'
  have hsame : y = y' := by
    have hname : x.1.name = x'.1.name := hname
    rw [firstNamed, hname] at hy
    exact Option.some.inj (hy.symm.trans hy')
  subst hsame
  exact congrArg Prod.fst (List.inj_on_of_nodup_map hsources hxy hxy' rfl)

/-- When the copy goes by names, names determine it. -/
theorem namesDetermine_of_firstNamed
    {assignments : List ((DeclFormal × Nat) × (DeclFormal × Nat))}
    (hshorter : tlIn.length < tlOut.length) (hcopy : numberedCopy tlIn tlOut = some assignments)
    (hfirst : ∀ x ∈ tlIn.zipIdx 1, ∃ y, firstNamed tlOut x.1 = some y ∧ (x, y) ∈ assignments) :
    NamesDetermine tlIn tlOut := by
  have hdistinct := distinct_of_firstNamed hcopy hfirst
  have hfields : ∀ x ∈ tlIn.zipIdx 1, ∃ y, firstNamed tlOut x.1 = some y ∧ (x, y) ∈ assignments ∧
      key Prod.fst y = key Prod.fst x := by
    intro x hx
    obtain ⟨y, hy, hxy⟩ := hfirst x hx
    refine ⟨y, hy, hxy, ?_⟩
    have hname : y.1.name = x.1.name := by simpa using List.find?_some hy
    have hkind := compatibleType_iff.mp (numberedCopy_mem hcopy _ hxy).2.2
    simp only [kind, stripDf, Prod.mk.injEq] at hkind
    exact stripDf_eq_iff.mpr ⟨hname, hkind.2.symm, hkind.1.symm⟩
  refine ⟨hshorter, hdistinct, fun d hd => ?_⟩
  obtain ⟨x, hx, rfl⟩ : ∃ x ∈ tlIn.zipIdx 1, x.1 = d := by
    rw [← List.zipIdx_map_fst 1 tlIn] at hd
    exact List.mem_map.mp hd
  obtain ⟨y, hy, hxy, hkey⟩ := hfields x hx
  obtain ⟨-, htype, hmod⟩ := stripDf_eq_iff.mp hkey
  refine ⟨y.1, (firstNamed_fst hy).1, htype, hmod, ?_⟩
  -- what the walk takes for this input
  obtain ⟨assignments', hcopy', htaken⟩ := @copyAssignments_of_subset _ Prod.fst
    (tlIn.zipIdx 1) (tlOut.zipIdx 1)
    (by rw [map_key_zipIdx]; exact nodup_stripDf hdistinct) (fun x' hx' => by
      obtain ⟨y', hy', -, hkey'⟩ := hfields x' hx'
      rw [← hkey']
      exact List.mem_map_of_mem (firstNamed_fst hy').2)
  obtain rfl : assignments = assignments' := Option.some.inj (hcopy.symm.trans hcopy')
  have htake := htaken _ hxy
  obtain ⟨rest, hrest⟩ := ownFields_of_firstNamed hy hkey
  by_cases hsame : y.1 = x.1
  · exact Or.inl hsame
  · right
    rw [← length_ownFields, hrest, List.length_cons]
    by_contra hne
    have hnil : rest ≠ [] := fun hnil => hne (by rw [hnil]; rfl)
    have hnodup : (y :: rest).Nodup := hrest ▸ (nodup_zipIdx tlOut).filter _
    rw [hrest, taken_cons_of_ne (fun heq => hsame heq.symm) hnil] at htake
    exact (List.nodup_cons.mp hnodup).1 (taken_mem htake)

/-- When names determine the copy, it goes by names. -/
theorem firstNamed_of_namesDetermine (h : NamesDetermine tlIn tlOut) :
    ∃ assignments, numberedCopy tlIn tlOut = some assignments ∧
      ∀ x ∈ tlIn.zipIdx 1, ∃ y, firstNamed tlOut x.1 = some y ∧ (x, y) ∈ assignments := by
  have hfields : ∀ x ∈ tlIn.zipIdx 1, ∃ y, firstNamed tlOut x.1 = some y ∧
      key Prod.fst y = key Prod.fst x ∧
      (y.1 = x.1 ∨ tlOut.countP (fun d => stripDf d = stripDf x.1) = 1) := by
    intro x hx
    obtain ⟨y, hfind, htype, hmod, hor⟩ := h.own x.1 (List.fst_mem_of_mem_zipIdx hx)
    obtain ⟨k, hk⟩ := exists_firstNamed hfind
    have hname : y.name = x.1.name := by simpa using List.find?_some hfind
    exact ⟨(y, k), hk, stripDf_eq_iff.mpr ⟨hname, htype, hmod⟩, hor⟩
  obtain ⟨assignments, hcopy, htaken⟩ := @copyAssignments_of_subset _ Prod.fst
    (tlIn.zipIdx 1) (tlOut.zipIdx 1)
    (by rw [map_key_zipIdx]; exact nodup_stripDf h.distinct) (fun x hx => by
      obtain ⟨y, hy, hkey, -⟩ := hfields x hx
      rw [← hkey]
      exact List.mem_map_of_mem (firstNamed_fst hy).2)
  refine ⟨assignments, hcopy, fun x hx => ?_⟩
  obtain ⟨y, hy, hkey, hor⟩ := hfields x hx
  refine ⟨y, hy, ?_⟩
  obtain ⟨p, hp, rfl⟩ : ∃ p ∈ assignments, p.1 = x := by
    have hmem := (copyAssignments_eq_some hcopy).1.mem_iff.mpr hx
    simpa using hmem
  have htake := htaken p hp
  obtain ⟨rest, hrest⟩ := ownFields_of_firstNamed hy hkey
  have hfirst : taken Prod.fst p.1 (y :: rest) = some y := by
    rcases hor with hsame | hone
    · exact taken_cons_of_eq hsame.symm
    · rw [← length_ownFields, hrest, List.length_cons, Nat.succ_inj,
        List.length_eq_zero_iff] at hone
      rw [hone]
      exact taken_singleton
  rw [hrest, hfirst] at htake
  obtain rfl : y = p.2 := Option.some.inj htake
  exact hp

/-- Exactly when numbers and conversion agree, for lists that are only accepted weakly. -/
theorem conversionAgrees_iff (digest : List StrippedDf → String) (weakUnification : Bool)
    (tlIn tlOut : List DeclFormal)
    (hdigest : digest (tlIn.map stripDf) = digest (tlOut.map stripDf) →
      tlIn.map stripDf = tlOut.map stripDf)
    (hweak : Unify.unifyTypeInOut weakUnification tlIn tlOut = .success .weak) :
    ConversionAgrees digest tlIn tlOut ↔ NamesDetermine tlIn tlOut := by
  obtain ⟨-, hstrong, haccepted⟩ := Unify.unifyTypeInOut_eq_weak_iff.mp hweak
  have hle : tlIn.length ≤ tlOut.length := Unify.weakUnify_length_le haccepted
  have hhash : tlIn.length ≠ tlOut.length →
      hashDeclFormalList digest tlIn ≠ hashDeclFormalList digest tlOut := by
    intro hne heq
    exact hne (by simpa using congrArg List.length (hdigest heq))
  constructor
  · intro h
    have hne := length_ne_of_agrees hstrong h
    obtain ⟨assignments, hcopy, hfirst⟩ :=
      (conversionAgrees_iff_firstNamed hne (hhash hne)).mp h
    exact namesDetermine_of_firstNamed (lt_of_le_of_ne hle hne) hcopy hfirst
  · intro h
    have hne := h.shorter.ne
    exact (conversionAgrees_iff_firstNamed hne (hhash hne)).mpr (firstNamed_of_namesDetermine h)

/-- The parameters one after the other, for a digest. -/
def listing (dfs : List StrippedDf) : String :=
  dfs.foldr (fun df rest =>
    (ofLex df).1 ++ " " ++ (ofLex (ofLex df).2).1 ++ " " ++ (ofLex (ofLex df).2).2 ++ "," ++ rest) ""

theorem conversionAgrees_iff_dropped :
    ConversionAgrees listing [⟨"", "int", "n", noposition⟩]
      [⟨"", "string", "s", noposition⟩, ⟨"", "int", "n", noposition⟩] := by
  apply (conversionAgrees_iff _ true _ _ (by decide) (by decide)).mpr
  refine ⟨by decide, by decide, fun x hx => ?_⟩
  obtain rfl := List.mem_singleton.mp hx
  exact ⟨_, rfl, rfl, rfl, Or.inl rfl⟩

/-- The fields change places, and the conditions are tested on the wrong ones. -/
theorem not_conversionAgrees_reordered :
    let tlIn : List DeclFormal := [⟨"", "int", "n", noposition⟩, ⟨"", "bool", "b", noposition⟩]
    let tlOut : List DeclFormal := [⟨"", "bool", "b", noposition⟩, ⟨"", "int", "n", noposition⟩]
    Unify.unifyTypeInOut true tlIn tlOut = .success .weak ∧
      ¬ ConversionAgrees listing tlIn tlOut := by
  intro tlIn tlOut
  refine ⟨by decide, fun h => ?_⟩
  exact length_ne_of_agrees (by decide) h rfl

end ConditionArguments
end Frontend
end OFlux
