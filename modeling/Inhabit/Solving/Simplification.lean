import Inhabit.Solving.Rewriting

/-! Rewriting of all pending constraints into atomic ones.

Binding a variable to a copy of a type brings new variables, and nothing in the
types bounds how long that goes on. Every run is therefore granted a number of
steps, and ends as unfinished when they do not suffice. A grant that suffices
gives the same result as any greater one. -/

namespace Inhabit

/-- Rewrite a list of constraints, from the first on, until each is atomic,
deferred or discharged. The parts of a constraint come before what followed it.
Atomic constraints go to the state; the deferred ones are returned, in the order
in which they turn up. -/
def rewriteAll : (steps : Nat) → List Constraint → Rewrite (List Constraint)
  | _, [] => return []
  | 0, _ :: _ => throw .unfinished
  | steps + 1, constraint :: rest => do
      match ← rewriteStep constraint with
      | .decomposed parts => rewriteAll steps (parts ++ rest)
      | .unified retry wellFormed =>
          Rewrite.modifyState (·.addPending [wellFormed])
          rewriteAll steps (retry :: rest)
      | .simple constraint =>
          Rewrite.modifyState (·.addSimple [constraint])
          rewriteAll steps rest
      | .deferred constraint => return constraint :: (← rewriteAll steps rest)
      | .discharged => rewriteAll steps rest

def simplify (steps : Nat) (constraint : Constraint) : Rewrite (List Constraint) :=
  rewriteAll steps [constraint]

def takePending : Rewrite (List Constraint) := do
  let pending := (← get).state.pending
  Rewrite.modifyState ({ · with pending := [] })
  return pending

/-- Rewrite what is pending, pass after pass, until a pass binds no variable, and
return the number of passes. What is deferred in one pass is tried again in the
next, since a binding may have unblocked it; what the last pass leaves deferred
joins the atomic constraints. -/
def simplifyPasses (steps : Nat) : (passes : Nat) → Rewrite Nat
  | 0 => throw .unfinished
  | passes + 1 => do
      let before := (← get).state.assignment.size
      let deferred := (← (← takePending).mapM (simplify steps)).flatten
      if (← get).state.assignment.size = before then
        Rewrite.modifyState (·.addSimple deferred)
        return 1
      else
        Rewrite.modifyState (·.addPending deferred)
        return (← simplifyPasses steps passes) + 1

def simplifyAll (steps : Nat) : Rewrite Nat := simplifyPasses steps steps

end Inhabit
