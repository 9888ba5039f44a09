import Inhabit.Proofs.Unification.Erasure
import Inhabit.Solving.Rewriting

/-! All that can be done with a constraint in one step. -/

namespace Inhabit

namespace Constraint

def types : Constraint → List RefinedType
  | .subtype _ left right => [left, right]
  | .wellFormed _ type => [type]
  | .wellFormedGuard _ _ => []

/-- The cases of `rewriting`, each with what is known of the constraint in it. -/
inductive Step (assignment : TypeAssignment) : Constraint → Rewriting → Prop where
  | applySubtype (env : Environment) (left right : RefinedType)
      (assigned : isAssignedVar assignment env left = true ∨
        isAssignedVar assignment env right = true) :
      Step assignment (.subtype env left right)
        (.decompose [.subtype env (assignment.apply left) (assignment.apply right)])
  | drop {env : Environment} {left right : RefinedType} {name : String}
      (isLeft : env.freeVar? left = some name)
      (isRight : env.freeVar? right = some name) :
      Step assignment (.subtype env left right) .drop
  | defer {env : Environment} {left right : RefinedType} {first second : String}
      (isLeft : env.freeVar? left = some first)
      (isRight : env.freeVar? right = some second)
      (firstOpen : assignment.find? first = none)
      (secondOpen : assignment.find? second = none) :
      Step assignment (.subtype env left right) .defer
  | bindLeft {env : Environment} {left right : RefinedType} {name : String}
      (isLeft : env.freeVar? left = some name)
      (isOpen : assignment.find? name = none)
      (rigid : env.freeVar? right = none) :
      Step assignment (.subtype env left right) (.bind name right)
  | bindRight {env : Environment} {left right : RefinedType} {name : String}
      (isRight : env.freeVar? right = some name)
      (isOpen : assignment.find? name = none)
      (rigid : env.freeVar? left = none) :
      Step assignment (.subtype env left right) (.bind name left)
  | keepAtoms {env : Environment} {base : BaseType} {first second : Formula}
      (leftRigid : env.freeVar? (.atom base first) = none)
      (rightRigid : env.freeVar? (.atom base second) = none) :
      Step assignment (.subtype env (.atom base first) (.atom base second)) .keep
  | decomposeScalars (env : Environment) (base : BaseType)
      (firstHead secondHead : RefinedType) {firstTail secondTail : List RefinedType}
      (first second : Formula) (lengths : firstTail.length = secondTail.length) :
      Step assignment (.subtype env (.scalar base (firstHead :: firstTail) first)
          (.scalar base (secondHead :: secondTail) second))
        (.decompose [.subtype env firstHead secondHead,
          .subtype env (.scalar base firstTail first) (.scalar base secondTail second)])
  | decomposeFunctions (env : Environment) (x : String)
      (firstArgument firstResult : RefinedType) (y : String)
      (secondArgument secondResult : RefinedType) :
      Step assignment (.subtype env (.function x firstArgument firstResult)
          (.function y secondArgument secondResult))
        (.decompose [.subtype env secondArgument firstArgument,
          if firstArgument.isScalar then
            .subtype (env.addVariable y secondArgument)
              (firstResult.renameVar x y firstArgument) secondResult
          else .subtype env firstResult secondResult])
  | mismatchScalars {env : Environment} {firstBase secondBase : BaseType}
      {firstArguments secondArguments : List RefinedType} {first second : Formula}
      (leftRigid : env.freeVar? (.scalar firstBase firstArguments first) = none)
      (rightRigid : env.freeVar? (.scalar secondBase secondArguments second) = none)
      (different : ¬ (firstBase = secondBase ∧
        firstArguments.length = secondArguments.length)) :
      Step assignment (.subtype env (.scalar firstBase firstArguments first)
        (.scalar secondBase secondArguments second)) .mismatch
  | mismatchRight {env : Environment} {base : BaseType} {arguments : List RefinedType}
      {refinement : Formula} (rigid : env.freeVar? (.scalar base arguments refinement) = none)
      (x : String) (argument result : RefinedType) :
      Step assignment (.subtype env (.scalar base arguments refinement)
        (.function x argument result)) .mismatch
  | mismatchLeft {env : Environment} {base : BaseType} {arguments : List RefinedType}
      {refinement : Formula} (rigid : env.freeVar? (.scalar base arguments refinement) = none)
      (x : String) (argument result : RefinedType) :
      Step assignment (.subtype env (.function x argument result)
        (.scalar base arguments refinement)) .mismatch
  | applyWellFormed (env : Environment) (type : RefinedType)
      (assigned : isAssignedVar assignment env type = true) :
      Step assignment (.wellFormed env type)
        (.decompose [.wellFormed env (assignment.apply type)])
  | keepAtom (env : Environment) (base : BaseType) (refinement : Formula) :
      Step assignment (.wellFormed env (.atom base refinement)) .keep
  | decomposeScalar (env : Environment) (base : BaseType) (head : RefinedType)
      (tail : List RefinedType) (refinement : Formula) :
      Step assignment (.wellFormed env (.scalar base (head :: tail) refinement))
        (.decompose ((head :: tail).map (.wellFormed env) ++
          [.wellFormed env (.atom base refinement)]))
  | decomposeFunction (env : Environment) (x : String) (argument result : RefinedType) :
      Step assignment (.wellFormed env (.function x argument result))
        (.decompose [.wellFormed env argument,
          .wellFormed (env.addVariable x argument) result])
  | keepGuard (env : Environment) (guard : Formula) :
      Step assignment (.wellFormedGuard env guard) .keep

theorem isAssignedVar_iff {assignment : TypeAssignment} {env : Environment}
    {t : RefinedType} :
    isAssignedVar assignment env t = true ↔
      ∃ name, env.freeVar? t = some name ∧ assignment.find? name ≠ none := by
  cases free : env.freeVar? t with
  | none => simp [isAssignedVar, free]
  | some name => simp [isAssignedVar, free, SortedMap.contains, Option.isSome_iff_ne_none]

private theorem find?_eq_none {assignment : TypeAssignment} {env : Environment}
    {t : RefinedType} {name : String} (free : env.freeVar? t = some name)
    (unassigned : ¬ isAssignedVar assignment env t = true) :
    assignment.find? name = none := by
  by_contra assigned
  exact unassigned (isAssignedVar_iff.mpr ⟨name, free, assigned⟩)

theorem step (assignment : TypeAssignment) (constraint : Constraint) :
    constraint.Step assignment (constraint.rewriting assignment) := by
  cases constraint with
  | wellFormedGuard env guard => exact .keepGuard env guard
  | wellFormed env type =>
      rw [rewriting]
      by_cases assigned : isAssignedVar assignment env type
      · rw [if_pos assigned]
        exact .applyWellFormed env type assigned
      · rw [if_neg assigned]
        cases type with
        | function x argument result => exact .decomposeFunction env x argument result
        | scalar base arguments refinement =>
            cases arguments with
            | nil => exact .keepAtom env base refinement
            | cons head tail => exact .decomposeScalar env base head tail refinement
  | subtype env left right =>
      rw [rewriting]
      by_cases assigned : isAssignedVar assignment env left ||
          isAssignedVar assignment env right
      · rw [if_pos assigned]
        exact .applySubtype env left right (by simpa using assigned)
      · rw [if_neg assigned]
        rw [Bool.or_eq_true, not_or] at assigned
        -- No side is an assigned variable, so a free one is unassigned.
        cases isLeft : env.freeVar? left with
        | some first =>
            have firstOpen := find?_eq_none isLeft assigned.1
            cases isRight : env.freeVar? right with
            | none => exact .bindLeft isLeft firstOpen isRight
            | some second =>
                have secondOpen := find?_eq_none isRight assigned.2
                dsimp only
                by_cases same : first = second
                · rw [if_pos same]
                  exact .drop isLeft (same ▸ isRight)
                · rw [if_neg same]
                  exact .defer isLeft isRight firstOpen secondOpen
        | none =>
            cases isRight : env.freeVar? right with
            | some second =>
                exact .bindRight isRight (find?_eq_none isRight assigned.2) isLeft
            | none =>
                cases left with
                | function x argument result =>
                    cases right with
                    | function y otherArgument otherResult =>
                        exact .decomposeFunctions env x argument result y _ _
                    | scalar base arguments refinement =>
                        exact .mismatchLeft isRight x argument result
                | scalar base arguments refinement =>
                    cases right with
                    | function x argument result =>
                        exact .mismatchRight isLeft x argument result
                    | scalar otherBase otherArguments other =>
                        dsimp only [decomposeSubtype]
                        by_cases alike : base = otherBase ∧
                            arguments.length = otherArguments.length
                        · rw [if_pos alike]
                          obtain ⟨rfl, lengths⟩ := alike
                          cases arguments with
                          | nil =>
                              cases otherArguments with
                              | nil => exact .keepAtoms isLeft isRight
                              | cons _ _ => cases lengths
                          | cons head tail =>
                              cases otherArguments with
                              | nil => cases lengths
                              | cons _ _ =>
                                  exact .decomposeScalars env base _ _ _ _
                                    (Nat.succ_inj.mp lengths)
                        · rw [if_neg alike]
                          exact .mismatchScalars isLeft isRight alike

theorem step_of_rewriting {assignment : TypeAssignment} {constraint : Constraint}
    {outcome : Rewriting} (equal : constraint.rewriting assignment = outcome) :
    constraint.Step assignment outcome :=
  equal ▸ constraint.step assignment

end Constraint

/-! ## Parts -/

/-- A property of types that passes from a constraint to its parts. -/
structure Inherits (assignment : TypeAssignment) (property : RefinedType → Prop) :
    Prop where
  scalarArgument : ∀ base arguments refinement,
    property (.scalar base arguments refinement) → ∀ t ∈ arguments, property t
  scalarFewer : ∀ base arguments refinement,
    property (.scalar base arguments refinement) →
      ∀ some, some ⊆ arguments → property (.scalar base some refinement)
  functionArgument : ∀ name argument result,
    property (.function name argument result) → property argument
  functionResult : ∀ name argument result,
    property (.function name argument result) → property result
  renameVar : ∀ t old new oldType, property t →
    property (RefinedType.renameVar t old new oldType)
  apply : ∀ t, property t → property (assignment.apply t)

theorem Inherits.parts {assignment : TypeAssignment} {property : RefinedType → Prop}
    (inherits : Inherits assignment property) {constraint : Constraint}
    {parts : List Constraint} (step : constraint.Step assignment (.decompose parts))
    (holds : ∀ t ∈ constraint.types, property t) :
    ∀ part ∈ parts, ∀ t ∈ part.types, property t := by
  cases step with
  | applySubtype env left right _ =>
      have leftHolds := inherits.apply left (holds left (by simp [Constraint.types]))
      have rightHolds := inherits.apply right (holds right (by simp [Constraint.types]))
      simp [Constraint.types, leftHolds, rightHolds]
  | decomposeScalars env base firstHead secondHead first second lengths =>
      have left := holds _ List.mem_cons_self
      have right := holds _ (List.mem_cons_of_mem _ List.mem_cons_self)
      have firstHolds := inherits.scalarArgument _ _ _ left _ List.mem_cons_self
      have secondHolds := inherits.scalarArgument _ _ _ right _ List.mem_cons_self
      have leftTail := inherits.scalarFewer _ _ _ left _ (List.subset_cons_self _ _)
      have rightTail := inherits.scalarFewer _ _ _ right _ (List.subset_cons_self _ _)
      simp [Constraint.types, firstHolds, secondHolds, leftTail, rightTail]
  | decomposeFunctions env x firstArgument firstResult y secondArgument secondResult =>
      have left := holds _ List.mem_cons_self
      have right := holds _ (List.mem_cons_of_mem _ List.mem_cons_self)
      have arguments : property secondArgument ∧ property firstArgument :=
        ⟨inherits.functionArgument _ _ _ right, inherits.functionArgument _ _ _ left⟩
      have results : property firstResult ∧ property secondResult :=
        ⟨inherits.functionResult _ _ _ left, inherits.functionResult _ _ _ right⟩
      have renamed := inherits.renameVar firstResult x y firstArgument results.1
      split <;> simp [Constraint.types, arguments, results, renamed]
  | applyWellFormed env type _ =>
      have applied := inherits.apply type (holds type (by simp [Constraint.types]))
      simp [Constraint.types, applied]
  | decomposeScalar env base head tail refinement =>
      have whole := holds _ List.mem_cons_self
      intro part member t inside
      rcases List.mem_append.mp member with member | member
      · rcases List.mem_map.mp member with ⟨argument, inList, rfl⟩
        rw [Constraint.types, List.mem_singleton] at inside
        rw [inside]
        exact inherits.scalarArgument _ _ _ whole argument inList
      · rw [List.mem_singleton] at member
        rw [member, Constraint.types, List.mem_singleton] at inside
        rw [inside]
        exact inherits.scalarFewer _ _ _ whole [] (List.nil_subset _)
  | decomposeFunction env x argument result =>
      have whole := holds _ List.mem_cons_self
      have argumentHolds := inherits.functionArgument _ _ _ whole
      have resultHolds := inherits.functionResult _ _ _ whole
      simp [Constraint.types, argumentHolds, resultHolds]

/-- A part is in the scope of the constraint, or in that scope with an argument of a function
bound in it that the constraint is about. -/
theorem Constraint.Step.parts_scope {assignment : TypeAssignment} {constraint : Constraint}
    {parts : List Constraint} (step : constraint.Step assignment (.decompose parts))
    (property : Environment → Prop) (scope : property constraint.env)
    (bound : ∀ name argument result, Skeleton.function name argument result ∈ constraint.types →
      property (constraint.env.addVariable name argument)) :
    ∀ part ∈ parts, property part.env := by
  cases step with
  | applySubtype | decomposeScalars | applyWellFormed => simpa [Constraint.env] using scope
  | decomposeFunctions env x firstArgument firstResult y secondArgument secondResult =>
      have outer : property env := scope
      have inner : property (env.addVariable y secondArgument) :=
        bound _ _ secondResult (List.mem_cons_of_mem _ List.mem_cons_self)
      split <;> simp [Constraint.env, outer, inner]
  | decomposeScalar env base head tail refinement =>
      intro part member
      rcases List.mem_append.mp member with member | member
      · rcases List.mem_map.mp member with ⟨_, _, rfl⟩
        exact scope
      · rw [List.mem_singleton.mp member]
        exact scope
  | decomposeFunction env x argument result =>
      have outer : property env := scope
      have inner : property (env.addVariable x argument) := bound _ _ result List.mem_cons_self
      simp [Constraint.env, outer, inner]

theorem Constraint.Step.parts_guard {assignment : TypeAssignment} {constraint : Constraint}
    {parts : List Constraint} (step : constraint.Step assignment (.decompose parts)) :
    ∀ part ∈ parts, ∀ env guard, part ≠ .wellFormedGuard env guard := by
  cases step with
  | applySubtype | decomposeScalars | applyWellFormed | decomposeFunction => simp
  | decomposeFunctions => split <;> simp
  | decomposeScalar =>
      intro part member env guard
      rcases List.mem_append.mp member with member | member
      · rcases List.mem_map.mp member with ⟨_, _, rfl⟩
        exact nofun
      · rw [List.mem_singleton.mp member]
        exact nofun

end Inhabit
