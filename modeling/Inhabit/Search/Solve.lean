import Inhabit.Search.Basic

/-! Solve steps: atomic constraints become Horn clauses and qualifier spaces, and
the candidates are refined by the new clauses. -/

namespace Inhabit.Search

def addQualifiers (unknown : String) (space : QualifierSpace) : Search σ Unit := do
  let space ← ask (·.prune space)
  modifyState fun state =>
    { state with qualifiers := state.qualifiers.insert unknown space }

def subtypeClause (env : Environment) (assignment : TypeAssignment)
    (left right : Formula) : HornClause :=
  { antecedent := (Formula.conjunction (env.positives assignment).toList).and left
    consequent := (Formula.disjunction (env.negatives assignment).toList).or right }

/-- Turn an atomic constraint into a clause or into qualifier spaces. Subtyping of
a free variable becomes pending again, a refinement that says nothing needs no
clause, and an unknown that has a space keeps it. -/
def lower (constraint : Constraint) : Search σ Unit := do
  let state := (← get).state
  let assignment := state.assignment
  match constraint with
  | .subtype env left right =>
      if (env.freeVar? left).isSome || (env.freeVar? right).isSome then
        constrain constraint
      else
        match left, right with
        | .scalar base₁ [] left, .scalar base₂ [] right =>
            if base₁ = base₂ then
              let right := assignment.applyFormula right
              unless right.isTrue do
                modifyState (·.addClause
                  (subtypeClause env assignment (assignment.applyFormula left) right))
            else fail (.nonSimpleConstraint constraint)
        | _, _ => fail (.nonSimpleConstraint constraint)
  | .wellFormed env (.scalar base [] refinement) =>
      let new := refinement.unknowns.toList.filter fun unknown =>
        !state.qualifiers.contains unknown
      let value := assignment.applyFormula (.value base.sort)
      let scalars := value :: env.scalars assignment
      for unknown in new do
        addQualifiers unknown ((← read).sources.refinements scalars)
  | .wellFormedGuard env (.unknown _ unknown) =>
      unless state.qualifiers.contains unknown do
        addQualifiers unknown
          ((← read).sources.guards (env.scalars assignment))
  | .wellFormed _ _ | .wellFormedGuard _ _ => fail (.nonSimpleConstraint constraint)

def lowerAll : Search σ Unit := do
  let simple := (← get).state.simple
  modifyState ({ · with simple := [] })
  simple.forM lower

def refineCandidates (program : Program) : Search σ Unit := do
  let state := (← get).state
  -- Both are with the solver until it answers.
  modifyState ({ · with clauses := [], candidates := [] })
  let candidates ← ask
    (·.refine state.clauses state.qualifiers program state.candidates)
  if candidates.isEmpty then fail .unsatisfiable
  else modifyState ({ · with candidates })

def solve (program : Program) : Search σ Unit := do
  let _ ← rewrite simplifyAll
  lowerAll
  refineCandidates program

def solveIncrementally (program : Program) : Search σ Unit := do
  if (← read).parameters.incremental then solve program

end Inhabit.Search
