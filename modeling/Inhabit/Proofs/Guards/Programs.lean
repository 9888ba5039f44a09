import Inhabit.Names
import Inhabit.Proofs.Unknowns.Programs

/-! What is bound on the way to a guard.

Lambdas and the cases of a match bind names. A match on anything but a variable brings
names that the program does not bind: those of the ghosts that stand for the scrutinee
and for the arguments of applications in it. -/

namespace Inhabit

def IsGhost (name : String) : Prop := ∃ number : Nat, name = Stem.ghost ++ toString number

namespace Program

def applications : Program → Nat
  | .app function argument _ => applications function + applications argument + 1
  | _ => 0
termination_by structural program => program

/-- How many ghosts a match on the term takes at most. A variable is known by its own
name. -/
def ghostCount (isConstant : String → Bool) : Program → Nat
  | .symbol name _ => if isConstant name then 1 else 0
  | program => program.applications + 1

mutual

/-- Each guard has the property, given which names are bound where it stands. A match
may bring so many ghosts. -/
def GuardsWithin (ghosts : Program → Nat) (onGuard : (String → Prop) → Formula → Prop)
    (bound : String → Prop) : Program → Prop
  | .symbol _ _ => True
  | .app function argument _ =>
      GuardsWithin ghosts onGuard bound function ∧
        GuardsWithin ghosts onGuard bound argument
  | .lambda parameter body _ =>
      GuardsWithin ghosts onGuard (fun name => name = parameter ∨ bound name) body
  | .fix _ body _ => GuardsWithin ghosts onGuard bound body
  | .ite guard thenBranch elseBranch _ =>
      onGuard bound guard ∧ GuardsWithin ghosts onGuard bound thenBranch ∧
        GuardsWithin ghosts onGuard bound elseBranch
  | .caseOf scrutinee cases _ =>
      GuardsWithin ghosts onGuard bound scrutinee ∧
        ∃ made : List String, made.length ≤ ghosts scrutinee ∧
          (∀ ghost ∈ made, IsGhost ghost) ∧
            GuardsWithinCases ghosts onGuard (fun name => name ∈ made ∨ bound name) cases
termination_by structural program => program

def GuardsWithinCases (ghosts : Program → Nat)
    (onGuard : (String → Prop) → Formula → Prop) (bound : String → Prop) :
    List (Case Program) → Prop
  | [] => True
  | ⟨_, binders, body⟩ :: rest =>
      GuardsWithin ghosts onGuard (fun name => name ∈ binders ∨ bound name) body ∧
        GuardsWithinCases ghosts onGuard bound rest
termination_by structural cases => cases

end

section Within

variable {ghosts : Program → Nat} {onGuard otherGuard : (String → Prop) → Formula → Prop}
  {bound : String → Prop}

theorem guardsWithinCases_iff {cases : List (Case Program)} :
    GuardsWithinCases ghosts onGuard bound cases ↔ ∀ case ∈ cases,
      GuardsWithin ghosts onGuard (fun name => name ∈ case.binders ∨ bound name)
        case.body := by
  induction cases with
  | nil => exact iff_of_true trivial (List.forall_mem_nil _)
  | cons case rest induction => rw [GuardsWithinCases, induction, List.forall_mem_cons]

theorem GuardsWithin.mono {program : Program}
    (within : program.GuardsWithin ghosts onGuard bound)
    (implied : ∀ bound guard, onGuard bound guard → otherGuard bound guard) :
    program.GuardsWithin ghosts otherGuard bound := by
  induction program using Program.induction generalizing bound with
  | symbol => trivial
  | app function argument type first second => exact within.imp first second
  | lambda parameter body type induction | fix names body type induction =>
      exact induction within
  | ite guard thenBranch elseBranch type first second =>
      exact within.imp (implied bound guard) (And.imp first second)
  | caseOf scrutinee cases type subject each =>
      rcases within with ⟨first, made, few, drawn, rest⟩
      refine ⟨subject first, made, few, drawn, guardsWithinCases_iff.mpr ?_⟩
      exact fun case member => each case member (guardsWithinCases_iff.mp rest case member)

/-! ## Annotations -/

theorem GuardsWithin.withType {program : Program}
    (within : program.GuardsWithin ghosts onGuard bound) (type : RefinedType) :
    (program.withType type).GuardsWithin ghosts onGuard bound := by
  cases program <;> exact within

theorem ghostCount_withType (isConstant : String → Bool) (type : RefinedType)
    (program : Program) :
    (program.withType type).ghostCount isConstant = program.ghostCount isConstant := by
  cases program <;> rfl

theorem applications_mapAnnotations (typeMap : RefinedType → RefinedType)
    (guardMap : Formula → Formula) (program : Program) :
    (program.mapAnnotations typeMap guardMap).applications = program.applications := by
  induction program using Program.induction with
  | app function argument type first second =>
      rw [Program.mapAnnotations, applications, applications, first, second]
  | symbol | lambda | fix | ite | caseOf => rfl

theorem ghostCount_mapAnnotations (isConstant : String → Bool)
    (typeMap : RefinedType → RefinedType)
    (guardMap : Formula → Formula) (program : Program) :
    (program.mapAnnotations typeMap guardMap).ghostCount isConstant =
      program.ghostCount isConstant := by
  have same := applications_mapAnnotations typeMap guardMap program
  cases program with
  | symbol => rfl
  | app | lambda | fix | ite | caseOf => exact congrArg (· + 1) same

theorem GuardsWithin.mapAnnotations {program : Program} {typeMap : RefinedType → RefinedType}
    {guardMap : Formula → Formula}
    (same : ∀ scrutinee, ghosts (scrutinee.mapAnnotations typeMap guardMap) = ghosts scrutinee)
    (within : program.GuardsWithin ghosts (fun bound guard =>
      onGuard bound (guardMap guard)) bound) :
    (program.mapAnnotations typeMap guardMap).GuardsWithin ghosts onGuard bound := by
  induction program using Program.induction generalizing bound with
  | symbol => trivial
  | app function argument type first second => exact within.imp first second
  | lambda parameter body type induction | fix names body type induction =>
      exact induction within
  | ite guard thenBranch elseBranch type first second =>
      exact within.imp id (And.imp first second)
  | caseOf scrutinee cases type subject each =>
      rcases within with ⟨first, made, few, drawn, rest⟩
      rw [← same scrutinee] at few
      refine ⟨subject first, made, few, drawn, ?_⟩
      rw [mapAnnotationsCases_eq_map, guardsWithinCases_iff, List.forall_mem_map]
      exact fun case member => each case member (guardsWithinCases_iff.mp rest case member)

end Within

/-! ## The guards of a program -/

mutual

def guardsUnder (binders : List String) : Program → List (List String × Formula)
  | .symbol _ _ => []
  | .app function argument _ => guardsUnder binders function ++ guardsUnder binders argument
  | .lambda parameter body _ => guardsUnder (parameter :: binders) body
  | .fix _ body _ => guardsUnder binders body
  | .ite guard thenBranch elseBranch _ =>
      (binders, guard) ::
        (guardsUnder binders thenBranch ++ guardsUnder binders elseBranch)
  | .caseOf scrutinee cases _ =>
      guardsUnder binders scrutinee ++ guardsUnderCases binders cases
termination_by structural program => program

def guardsUnderCases (binders : List String) :
    List (Case Program) → List (List String × Formula)
  | [] => []
  | ⟨_, others, body⟩ :: rest =>
      guardsUnder (others ++ binders) body ++ guardsUnderCases binders rest
termination_by structural cases => cases

end

theorem guardsUnderCases_eq_flatMap (binders : List String) (cases : List (Case Program)) :
    guardsUnderCases binders cases =
      cases.flatMap fun case => guardsUnder (case.binders ++ binders) case.body := by
  induction cases with
  | nil => rfl
  | cons case rest induction => rw [guardsUnderCases, induction, List.flatMap_cons]

/-- Every guard has the property, given the names that are bound on the way to it and
the others that are around, among them all that matches may bring. -/
theorem GuardsWithin.forall_guardsUnder {ghosts : Program → Nat}
    {onGuard : (String → Prop) → Formula → Prop} {bound others : String → Prop}
    {binders : List String} {program : Program}
    (within : program.GuardsWithin ghosts onGuard bound)
    (known : ∀ name, bound name → name ∈ binders ∨ others name)
    (brought : ∀ scrutinee, ghosts scrutinee ≠ 0 → ∀ ghost, IsGhost ghost → others ghost)
    (widens : ∀ narrow wide guard, (∀ name, narrow name → wide name) → onGuard narrow guard →
      onGuard wide guard) :
    ∀ guarded ∈ program.guardsUnder binders,
      onGuard (fun name => name ∈ guarded.1 ∨ others name) guarded.2 := by
  induction program using Program.induction generalizing bound binders with
  | symbol => exact List.forall_mem_nil _
  | app function argument type first second =>
      exact List.forall_mem_append.mpr ⟨first within.1 known, second within.2 known⟩
  | lambda parameter body type induction =>
      apply induction within
      rintro name (rfl | old)
      · exact .inl List.mem_cons_self
      · exact (known name old).imp_left (List.mem_cons_of_mem _)
  | fix names body type induction => exact induction within known
  | ite guard thenBranch elseBranch type first second =>
      exact List.forall_mem_cons.mpr ⟨widens _ _ _ known within.1,
        List.forall_mem_append.mpr ⟨first within.2.1 known, second within.2.2 known⟩⟩
  | caseOf scrutinee cases type subject each =>
      rcases within with ⟨first, made, few, drawn, rest⟩
      refine List.forall_mem_append.mpr ⟨subject first known, ?_⟩
      rw [guardsUnderCases_eq_flatMap]
      intro guarded member
      rcases List.mem_flatMap.mp member with ⟨case, inside, member⟩
      apply each case inside (guardsWithinCases_iff.mp rest case inside) _ guarded member
      rintro name (bound | isMade | old)
      · exact .inl (List.mem_append_left _ bound)
      · have brings : ghosts scrutinee ≠ 0 :=
          Nat.ne_of_gt (Nat.lt_of_lt_of_le (List.length_pos_of_mem isMade) few)
        exact .inr (brought scrutinee brings name (drawn name isMade))
      · exact (known name old).imp_left (List.mem_append_right _)

end Program

end Inhabit
