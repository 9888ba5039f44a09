import Inhabit.Formula.Evaluation
import Inhabit.Typing.Printer

/-! How a search ends without a program. -/

namespace Inhabit

inductive Budget where
  | application
  | matching
  | conditional
  deriving DecidableEq, Repr, Inhabited

def Budget.render : Budget → String
  | .application => "application"
  | .matching => "match"
  | .conditional => "conditional"

inductive Cause where
  | shapeMismatch (constraint : Constraint)
  | occursCheck (typeVar : String) (type : RefinedType)
  | depthExhausted (budget : Budget)
  | noSymbols (shape : Shape)
  | unsatisfiable
  | escapingTypeVars (type : RefinedType)
  | noSolution (goal : String)
  | missingConstructor (name : String)
  | nonSimpleConstraint (constraint : Constraint)
  | solver (message : String)
  deriving DecidableEq, Inhabited

namespace Cause

/-- Faults of what the search was given. They end it; any other failure only ends
the branch it occurs in. -/
def isFatal : Cause → Bool
  | .missingConstructor _ | .nonSimpleConstraint _ | .solver _ => true
  | _ => false

def message : Cause → String
  | .shapeMismatch c => "shape mismatch in constraint `" ++ c.render ++ "`"
  | .occursCheck a t => "type variable `" ++ a ++ "` occurs in `" ++ t.render ++ "`"
  | .depthExhausted budget => budget.render ++ " depth exhausted"
  | .noSymbols shape => "no symbols of shape `" ++ shape.render ++ "`"
  | .unsatisfiable => "no liquid assignment satisfies the constraints"
  | .escapingTypeVars t => "type `" ++ t.render ++ "` mentions unbound type variables"
  | .noSolution goal => "no program for `" ++ goal ++ "` found within bounds"
  | .missingConstructor name => "constructor `" ++ name ++ "` is not in scope"
  | .nonSimpleConstraint c => "constraint `" ++ c.render ++ "` is not simple"
  | .solver message => "solver failure: " ++ message

def label : Cause → String
  | .noSolution _ => "synthesis error"
  | cause => if cause.isFatal then "internal error" else "branch failure"

end Cause

inductive Context where
  | scope (env : Environment)
  | note (text : String)
  deriving DecidableEq, Inhabited

/-- The text of a context. A scope is not spelled out. -/
def Context.render : Context → String
  | .scope _ => "<env>"
  | .note text => text

structure Failure where
  cause : Cause
  context : Option Context := none
  deriving DecidableEq, Inhabited

namespace Failure

def isFatal (failure : Failure) : Bool := failure.cause.isFatal

def withContext (context : Context) (failure : Failure) : Failure :=
  { failure with context := some context }

def unsatisfiable : Failure := ⟨.unsatisfiable, none⟩

def noSymbols (shape : Shape) : Failure := ⟨.noSymbols shape, none⟩

def depthExhausted (budget : Budget) : Failure := ⟨.depthExhausted budget, none⟩

def nonSimpleConstraint (constraint : Constraint) : Failure :=
  ⟨.nonSimpleConstraint constraint, some (.scope constraint.env)⟩

def render (failure : Failure) : String :=
  match failure.context with
  | none => failure.cause.message
  | some context => failure.cause.message ++ " (" ++ context.render ++ ")"

end Failure

inductive Interrupt where
  | failed (failure : Failure)
  | trapped (trap : Trap)
  /-- A rewriting did not come to its end in the steps it was granted. -/
  | unfinished
  deriving DecidableEq, Inhabited

end Inhabit
