import Inhabit.Formula.Validity
import Inhabit.Solving.Solver

/-! A solver that checks clauses over a bounded domain and weakens.

An unknown starts with all the qualifiers its space allows, and qualifiers are
dropped while they make a clause fail. Every round but the last drops at least
one, so the number of qualifiers bounds the rounds. -/

namespace Inhabit

def Solution.weight (solution : Solution) : Nat :=
  solution.values.foldr (fun valuation weight => valuation.size + weight) 0

namespace HornClause

def holds (bound : Int64) (solution : Solution) (clause : HornClause) :
    Except Trap Bool :=
  (clause.applySolution solution).toFormula.isValid bound

def firstBroken (bound : Int64) (solution : Solution) :
    List HornClause → Except Trap (Option HornClause)
  | [] => return none
  | clause :: rest => do
      if ← clause.holds bound solution then firstBroken bound solution rest
      else return some clause

def impliedQualifiers (bound : Int64) (clause : HornClause) (solution : Solution)
    (unknown : String) : Except Trap Valuation := do
  let qualifiers := ((solution.find? unknown).getD ∅).toList
  -- Each on its own, with the other unknowns as they are.
  let implied ← qualifiers.filterM fun qualifier =>
    (HornClause.mk (clause.antecedent.applySolution solution)
      (clause.consequent.applySolution
        (solution.insert unknown (.singleton qualifier)))).toFormula.isValid bound
  return .ofList implied

def weakenFor (bound : Int64) (clause : HornClause) :
    (unknowns : List String) → Solution → Except Trap Solution
  | [], solution => return solution
  | unknown :: rest, solution => do
      let implied ← clause.impliedQualifiers bound solution unknown
      if implied.size = ((solution.find? unknown).getD ∅).size then
        clause.weakenFor bound rest solution
      else clause.weakenFor bound rest (solution.insert unknown implied)

end HornClause

namespace Solution

/-- Weaken a solution until every clause holds. Fails on a clause for which
nothing is left to drop. -/
def weaken (bound : Int64) (clauses : List HornClause) (solution : Solution) :
    Except Trap (Option Solution) := do
  match ← HornClause.firstBroken bound solution clauses with
  | none => return some solution
  | some clause =>
      let weaker ← clause.weakenFor bound clause.consequent.unknowns.toList solution
      if weaker.weight < solution.weight then weaken bound clauses weaker
      else return none
termination_by solution.weight

/-- Give every unknown of the map that has no predicate the strongest one that
its space allows. -/
def withStrongest (qualifiers : QualifierMap) (solution : Solution) : Solution :=
  qualifiers.entries.foldl (fun solution entry =>
    solution.insertIfNew entry.1
      (.ofList (entry.2.qualifiers.take entry.2.maxCount))) solution

end Solution

namespace Candidate

def refine (bound : Int64) (clauses : List HornClause) (qualifiers : QualifierMap)
    (candidate : Candidate) : Except Trap (Option Candidate) := do
  match ← (candidate.solution.withStrongest qualifiers).weaken bound
      (candidate.validClauses.toList ++ clauses) with
  | some solution => return some ({ candidate with solution }.withValid clauses)
  | none => return none

def refineAll (bound : Int64) (clauses : List HornClause)
    (qualifiers : QualifierMap) :
    List Candidate → Except Trap (List Candidate)
  | [] => return []
  | candidate :: rest => do
      match ← candidate.refine bound clauses qualifiers with
      | some refined => return refined :: (← refineAll bound clauses qualifiers rest)
      | none => refineAll bound clauses qualifiers rest

end Candidate

structure BoundedTally where
  calls : Nat := 0
  rejections : Nat := 0
  deriving DecidableEq, Repr, Inhabited

def Solver.bounded (bound : Int64) : Solver BoundedTally where
  initial := { label := "0" }
  refine clauses qualifiers _ candidates := do
    modify fun tally => { tally with calls := tally.calls + 1 }
    match Candidate.refineAll bound clauses qualifiers candidates with
    | .error trap => throw (.trapped trap)
    | .ok refined =>
        if refined.isEmpty then
          modify fun tally => { tally with rejections := tally.rejections + 1 }
        return refined
  prune space := return space.prune

end Inhabit
