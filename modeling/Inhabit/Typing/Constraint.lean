import Inhabit.Typing.Environment

/-! Typing obligations. -/

namespace Inhabit

inductive Constraint where
  /-- Values of the left type can be used where the right type is expected. -/
  | subtype (env : Environment) (left right : RefinedType)
  /-- The unknowns of the type are predicates over the scope. -/
  | wellFormed (env : Environment) (type : RefinedType)
  /-- The guard is a predicate over the scope. -/
  | wellFormedGuard (env : Environment) (guard : Formula)
  deriving DecidableEq, Inhabited

namespace Constraint

def env : Constraint → Environment
  | .subtype env _ _ | .wellFormed env _ | .wellFormedGuard env _ => env

end Constraint

/-- Apply an assignment to the types of a constraint; the scope is left alone. -/
def TypeAssignment.applyConstraint (assignment : TypeAssignment) :
    Constraint → Constraint
  | .subtype env left right =>
      .subtype env (assignment.apply left) (assignment.apply right)
  | .wellFormed env type => .wellFormed env (assignment.apply type)
  | .wellFormedGuard env guard =>
      .wellFormedGuard env (assignment.applyFormula guard)

end Inhabit
