import OFlux.Frontend.TypeCheck
import Mathlib.Data.List.DropRight

/-!
# Unification of parameter lists

Parameter lists unify strongly when they agree position by position, up to reference signs and
added constness.  Where that fails, the compiler can be told to unify them weakly: then every
input parameter needs an output of its own that is left over in the order of names, and the
generated code converts one structure to the other.

Main results:

- Theorem {lit}`strongUnify_eq_success_iff`: strong unification goes position by position.
- Theorem {lit}`weakUnify_length_le`: weak unification never drops an input.
-/

namespace OFlux
namespace Frontend
namespace Unify

/-- Weak success leaves parameters of the output over. -/
inductive SuccessType where
  | weak
  | strong
deriving DecidableEq, Repr

/-- The answer of a unification. -/
inductive UnifyResult where
  | success (how : SuccessType)
  /-- The position of the argument and the reason. -/
  | fail (i : Int) (reason : String)
deriving DecidableEq, Repr

/-- A type without the ampersands of a reference. -/
def cleanseAmp (s : String) : String :=
  String.ofList (s.toList.rdropWhile (· = '&'))

/-- The reason why a parameter does not take what another one holds. -/
def unifySingle (d1 d2 : DeclFormal) : Option String :=
  match decide (cleanseAmp d1.ctype = cleanseAmp d2.ctype), d1.ctypemod, d2.ctypemod with
  | false, _, _ => some "mismatched types"
  | _, "const", "" => none
  | _, "", "const" => some "cannot drop const"
  | _, ctm1, ctm2 => if ctm1 = ctm2 then none else some "mismatched type modifiers"

/-- Fields of one type and modifier unify. -/
theorem unifySingle_of_same {d1 d2 : DeclFormal} (htype : d1.ctype = d2.ctype)
    (hmod : d1.ctypemod = d2.ctypemod) : unifySingle d1 d2 = none := by
  unfold unifySingle
  rw [htype, decide_eq_true rfl, hmod]
  split <;> simp_all

/-! ## Strong unification -/

/-- The lists have to fit position by position. -/
def strongUnifyFrom (i : Int) : List DeclFormal → List DeclFormal → UnifyResult
  | [], [] => .success .strong
  | tinh :: tintl, touh :: toutl =>
      match unifySingle tinh touh with
      | none => strongUnifyFrom (i + 1) tintl toutl
      | some reason => .fail i reason
  | _, _ => .fail i "one more argument between unified parameter lists"

/-- {lit}`StrongU.unify_type_in_out`. -/
def strongUnify (tlIn tlOut : List DeclFormal) : UnifyResult :=
  strongUnifyFrom 0 tlIn tlOut

/-- Lists unify strongly field by field. -/
theorem strongUnifyFrom_eq_success_iff {i : Int} {tlIn tlOut : List DeclFormal} :
    strongUnifyFrom i tlIn tlOut = .success .strong ↔
      List.Forall₂ (fun tin tout => unifySingle tin tout = none) tlIn tlOut := by
  induction tlIn generalizing i tlOut with
  | nil => cases tlOut <;> simp [strongUnifyFrom]
  | cons tinh tintl ih =>
      cases tlOut with
      | nil => simp [strongUnifyFrom]
      | cons touh toutl =>
          rw [strongUnifyFrom, List.forall₂_cons]
          cases hsingle : unifySingle tinh touh with
          | none => simp [ih]
          | some reason => simp

/-- Strong unification succeeds if and only if it does so at every position. -/
theorem strongUnify_eq_success_iff {tlIn tlOut : List DeclFormal} :
    strongUnify tlIn tlOut = .success .strong ↔
      List.Forall₂ (fun tin tout => unifySingle tin tout = none) tlIn tlOut :=
  strongUnifyFrom_eq_success_iff

/-! ## Weak unification -/

/-- What parameters are sorted by: name, type and modifier. -/
def weakKey (df : DeclFormal) : String ×ₗ String ×ₗ String :=
  toLex (df.name, toLex (df.ctype, df.ctypemod))

/-- The order in which weak unification meets the parameters. -/
def compareDf (df1 df2 : DeclFormal) : Ordering :=
  compare (weakKey df1) (weakKey df2)

/-- Each parameter of the input is found in the output, in order. -/
def asymMerge (i : Int) : List DeclFormal → List DeclFormal → UnifyResult
  | htin :: ttin, htout :: ttout =>
      match unifySingle htin htout with
      | none => asymMerge (i + 1) ttin ttout
      | some _ =>
          if compareDf htin htout = .lt then .fail i "this input parameter is unmatched"
          else asymMerge i (htin :: ttin) ttout
  | _ :: _, [] => .fail i "this input parameter is unmatched"
  | [], _ => .success .weak

/-- {lit}`WeakU.unify_type_in_out`. -/
def weakUnify (tlIn tlOut : List DeclFormal) : UnifyResult :=
  let sort := List.insertionSort fun df1 df2 => compareDf df1 df2 ≠ .gt
  asymMerge 0 (sort tlIn) (sort tlOut)

/-- A weak merge takes no more fields than there are. -/
theorem asymMerge_length_le {i : Int} {tin tout : List DeclFormal}
    (h : asymMerge i tin tout = .success .weak) : tin.length ≤ tout.length := by
  induction tout generalizing i tin with
  | nil =>
      cases tin with
      | nil => exact le_rfl
      | cons => cases h
  | cons htout ttout ih =>
      cases tin with
      | nil => exact Nat.zero_le _
      | cons htin ttin =>
          rw [asymMerge] at h
          split at h
          · exact Nat.succ_le_succ (ih h)
          · split at h
            · cases h
            · exact (ih h).trans (Nat.le_succ _)

/-- A weak unification takes no more fields than there are. -/
theorem weakUnify_length_le {tlIn tlOut : List DeclFormal}
    (h : weakUnify tlIn tlOut = .success .weak) : tlIn.length ≤ tlOut.length := by
  simpa using asymMerge_length_le h

/-! ## Both -/

/-- The unification of an input and an output list, where {lit}`weakUnification` is set by an
option of the command line. -/
def unifyTypeInOut (weakUnification : Bool) (a1 a2 : List DeclFormal) : UnifyResult :=
  if weakUnification then
    match strongUnify a1 a2 with
    | .fail _ _ => weakUnify a1 a2
    | r => r
  else strongUnify a1 a2

/-- A strong unification is never weak. -/
theorem strongUnifyFrom_ne_weak {i : Int} {tlIn tlOut : List DeclFormal} :
    strongUnifyFrom i tlIn tlOut ≠ .success .weak := by
  induction tlIn generalizing i tlOut with
  | nil => cases tlOut <;> simp [strongUnifyFrom]
  | cons tinh tintl ih =>
      cases tlOut with
      | nil => simp [strongUnifyFrom]
      | cons touh toutl =>
          rw [strongUnifyFrom]
          split
          · exact ih
          · simp

/-- Lists that are only accepted weakly. -/
theorem unifyTypeInOut_eq_weak_iff {weakUnification : Bool} {a1 a2 : List DeclFormal} :
    unifyTypeInOut weakUnification a1 a2 = .success .weak ↔
      weakUnification = true ∧ strongUnify a1 a2 ≠ .success .strong ∧
        weakUnify a1 a2 = .success .weak := by
  have hstrong : strongUnify a1 a2 ≠ .success .weak := strongUnifyFrom_ne_weak
  unfold unifyTypeInOut
  cases weakUnification with
  | false => simpa using hstrong
  | true =>
      cases hcase : strongUnify a1 a2 with
      | success how =>
          cases how with
          | weak => exact absurd hcase hstrong
          | strong => simp
      | fail i reason => simp

end Unify
end Frontend
end OFlux
