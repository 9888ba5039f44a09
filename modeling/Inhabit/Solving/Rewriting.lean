import Inhabit.Solving.State
import Inhabit.Unification

/-! One step of the rewriting of constraints into atomic ones.

`Constraint.rewriting` says what is to be done with a constraint under an
assignment and draws no names; `rewriteStep` does it. -/

namespace Inhabit

inductive Rewriting where
  /-- These constraints take its place, in order. -/
  | decompose (parts : List Constraint)
  /-- The variable is bound to a copy of the type, and the constraint is tried
  again. -/
  | bind (name : String) (type : RefinedType)
  | keep
  /-- It relates two variables that are still unassigned. -/
  | defer
  | drop
  /-- The two types have different skeletons. -/
  | mismatch
  deriving DecidableEq

namespace Constraint

def isAssignedVar (assignment : TypeAssignment) (env : Environment)
    (t : RefinedType) : Bool :=
  (env.freeVar? t).any assignment.contains

/-- Subtyping of types neither of which is a free variable. Functions are
compared at their arguments, the other way round, and at their results, with the
argument of the right function in scope under the name it has there. -/
def decomposeSubtype (env : Environment) :
    (left right : RefinedType) → Rewriting
  | .scalar base₁ args₁ refinement₁, .scalar base₂ args₂ refinement₂ =>
      if base₁ = base₂ ∧ args₁.length = args₂.length then
        match args₁, args₂ with
        | arg₁ :: rest₁, arg₂ :: rest₂ => .decompose [
            .subtype env arg₁ arg₂,
            .subtype env (.scalar base₁ rest₁ refinement₁)
              (.scalar base₂ rest₂ refinement₂)]
        | _, _ => .keep
      else .mismatch
  | .function x arg₁ res₁, .function y arg₂ res₂ =>
      .decompose [
        .subtype env arg₂ arg₁,
        -- Refinements do not speak of functions.
        if arg₁.isScalar then
          .subtype (env.addVariable y arg₂) (RefinedType.renameVar res₁ x y arg₁) res₂
        else
          .subtype env res₁ res₂]
  | _, _ => .mismatch

def decomposeWellFormed (env : Environment) : RefinedType → Rewriting
  | .scalar _ [] _ => .keep
  | .scalar base arguments refinement =>
      .decompose (arguments.map (.wellFormed env) ++
        [.wellFormed env (.atom base refinement)])
  | .function name argument result =>
      .decompose [
        .wellFormed env argument,
        .wellFormed (env.addVariable name argument) result]

def rewriting (assignment : TypeAssignment) : Constraint → Rewriting
  | .subtype env left right =>
      if isAssignedVar assignment env left || isAssignedVar assignment env right then
        .decompose [.subtype env (assignment.apply left) (assignment.apply right)]
      else
        match env.freeVar? left, env.freeVar? right with
        | some a, some b => if a = b then .drop else .defer
        | some a, none => .bind a right
        | none, some b => .bind b left
        | none, none => decomposeSubtype env left right
  | .wellFormed env type =>
      if isAssignedVar assignment env type then
        .decompose [.wellFormed env (assignment.apply type)]
      else decomposeWellFormed env type
  | .wellFormedGuard _ _ => .keep

end Constraint

structure Workspace where
  names : NameSupply
  state : SearchState
  deriving DecidableEq, Inhabited

abbrev Rewrite := ExceptT Interrupt (StateM Workspace)

namespace Rewrite

def modifyState (change : SearchState → SearchState) : Rewrite Unit :=
  modify fun workspace => { workspace with state := change workspace.state }

def fail (failure : Failure) : Rewrite α := throw (.failed failure)

def naming (draw : Naming α) : Rewrite α := do
  let workspace ← get
  let (result, names) := draw.run workspace.names
  set { workspace with names }
  return result

end Rewrite

inductive StepOutcome where
  | decomposed (parts : List Constraint)
  /-- A variable was bound. The constraint is to be tried again at once, and the
  type it was bound to has to be well formed. -/
  | unified (retry wellFormed : Constraint)
  | simple (constraint : Constraint)
  | deferred (constraint : Constraint)
  | discharged
  deriving DecidableEq

def rewriteStep (constraint : Constraint) : Rewrite StepOutcome := do
  let assignment := (← get).state.assignment
  match constraint.rewriting assignment with
  | .decompose parts => return .decomposed parts
  | .keep => return .simple constraint
  | .defer => return .deferred constraint
  | .drop => return .discharged
  | .mismatch => Rewrite.fail ⟨.shapeMismatch constraint, none⟩
  | .bind name type =>
      match ← Rewrite.naming (assignment.unify constraint.env name type).run with
      | .error failure => Rewrite.fail failure
      | .ok (assignment, wellFormed) =>
          Rewrite.modifyState fun state => { state with assignment }
          return .unified constraint wellFormed

end Inhabit
