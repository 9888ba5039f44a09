import Inhabit.Program.Basic

/-! What holds of all annotations of a program. -/

namespace Inhabit

namespace Program

mutual

def All (onType : RefinedType → Prop) (onGuard : Formula → Prop) : Program → Prop
  | .symbol _ type => onType type
  | .app function argument type =>
      All onType onGuard function ∧ All onType onGuard argument ∧ onType type
  | .lambda _ body type | .fix _ body type => All onType onGuard body ∧ onType type
  | .ite guard thenBranch elseBranch type =>
      onGuard guard ∧ All onType onGuard thenBranch ∧ All onType onGuard elseBranch ∧
        onType type
  | .caseOf scrutinee cases type =>
      All onType onGuard scrutinee ∧ AllCases onType onGuard cases ∧ onType type
termination_by structural program => program

def AllCases (onType : RefinedType → Prop) (onGuard : Formula → Prop) :
    List (Case Program) → Prop
  | [] => True
  | ⟨_, _, body⟩ :: rest => All onType onGuard body ∧ AllCases onType onGuard rest
termination_by structural cases => cases

end

variable {onType otherType : RefinedType → Prop} {onGuard otherGuard : Formula → Prop}

theorem allCases_iff {cases : List (Case Program)} :
    AllCases onType onGuard cases ↔ ∀ case ∈ cases, All onType onGuard case.body := by
  induction cases with
  | nil => exact iff_of_true trivial (List.forall_mem_nil _)
  | cons case rest induction => rw [AllCases, induction, List.forall_mem_cons]

theorem induction {motive : Program → Prop}
    (symbol : ∀ name type, motive (.symbol name type))
    (app : ∀ function argument type, motive function → motive argument →
      motive (.app function argument type))
    (lambda : ∀ x body type, motive body → motive (.lambda x body type))
    (fix : ∀ names body type, motive body → motive (.fix names body type))
    (ite : ∀ guard thenBranch elseBranch type, motive thenBranch → motive elseBranch →
      motive (.ite guard thenBranch elseBranch type))
    (caseOf : ∀ scrutinee cases type, motive scrutinee →
      (∀ case ∈ cases, motive case.body) → motive (.caseOf scrutinee cases type)) :
    ∀ program, motive program :=
  @Program.rec motive (fun cases => ∀ case ∈ cases, motive case.body)
    (fun case => motive case.body) symbol app lambda fix ite caseOf
    (List.forall_mem_nil _) (fun _ _ first rest => List.forall_mem_cons.mpr ⟨first, rest⟩)
    (fun _ _ _ => id)

theorem All.type {program : Program} (all : program.All onType onGuard) :
    onType program.type := by
  cases program with
  | symbol => exact all
  | app => exact all.2.2
  | lambda | fix => exact all.2
  | ite => exact all.2.2.2
  | caseOf => exact all.2.2

theorem All.mono {program : Program} (all : program.All onType onGuard)
    (types : ∀ type, onType type → otherType type)
    (guards : ∀ guard, onGuard guard → otherGuard guard) :
    program.All otherType otherGuard := by
  induction program using Program.induction with
  | symbol name type => exact types type all
  | app function argument type first second =>
      exact ⟨first all.1, second all.2.1, types type all.2.2⟩
  | lambda x body type induction | fix names body type induction =>
      exact ⟨induction all.1, types type all.2⟩
  | ite guard thenBranch elseBranch type first second =>
      exact ⟨guards guard all.1, first all.2.1, second all.2.2.1, types type all.2.2.2⟩
  | caseOf scrutinee cases type subject each =>
      exact ⟨subject all.1, allCases_iff.mpr fun case member =>
        each case member (allCases_iff.mp all.2.1 case member), types type all.2.2⟩

theorem all_of_forall (types : ∀ type, onType type) (guards : ∀ guard, onGuard guard)
    (program : Program) : program.All onType onGuard := by
  induction program using Program.induction with
  | symbol name type => exact types type
  | app function argument type first second => exact ⟨first, second, types type⟩
  | lambda x body type induction | fix names body type induction =>
      exact ⟨induction, types type⟩
  | ite guard thenBranch elseBranch type first second =>
      exact ⟨guards guard, first, second, types type⟩
  | caseOf scrutinee cases type subject each =>
      exact ⟨subject, allCases_iff.mpr each, types type⟩

theorem All.withType {program : Program} (all : program.All onType onGuard)
    {type : RefinedType} (holds : onType type) :
    (program.withType type).All onType onGuard := by
  cases program with
  | symbol => exact holds
  | app => exact ⟨all.1, all.2.1, holds⟩
  | lambda | fix => exact ⟨all.1, holds⟩
  | ite => exact ⟨all.1, all.2.1, all.2.2.1, holds⟩
  | caseOf => exact ⟨all.1, all.2.1, holds⟩

theorem mapAnnotationsCases_eq_map (typeMap : RefinedType → RefinedType)
    (guardMap : Formula → Formula) (cases : List (Case Program)) :
    mapAnnotationsCases typeMap guardMap cases = cases.map fun case =>
      { case with body := case.body.mapAnnotations typeMap guardMap } := by
  induction cases with
  | nil => rfl
  | cons _ _ induction => exact congrArg (_ :: ·) induction

theorem all_mapAnnotations {program : Program} {typeMap : RefinedType → RefinedType}
    {guardMap : Formula → Formula} :
    (program.mapAnnotations typeMap guardMap).All onType onGuard ↔
      program.All (fun type => onType (typeMap type)) fun guard =>
        onGuard (guardMap guard) := by
  induction program using Program.induction with
  | symbol name type => rfl
  | app function argument type first second =>
      exact and_congr first (and_congr second .rfl)
  | lambda x body type induction | fix names body type induction =>
      exact and_congr induction .rfl
  | ite guard thenBranch elseBranch type first second =>
      exact and_congr .rfl (and_congr first (and_congr second .rfl))
  | caseOf scrutinee cases type subject each =>
      apply and_congr subject (and_congr _ .rfl)
      rw [mapAnnotationsCases_eq_map, allCases_iff, allCases_iff, List.forall_mem_map]
      exact forall₂_congr each

end Program

end Inhabit
