import Inhabit.Horn.Clause
import Inhabit.Horn.QualifierSpace

/-! Candidate solutions of a growing list of Horn clauses. -/

namespace Inhabit

structure Candidate where
  solution : Solution := ∅
  validClauses : SortedSet HornClause := ∅
  invalidClauses : SortedSet HornClause := ∅
  label : String
  deriving DecidableEq, Inhabited

namespace Candidate

/-- The predicate of an unknown; `top` if none has been chosen. -/
def valuation (candidate : Candidate) (unknown : String) : Formula :=
  match candidate.solution.find? unknown with
  | some valuation => valuation.conjunction
  | none => .top

def withValid (candidate : Candidate) (clauses : List HornClause) : Candidate :=
  { candidate with validClauses := candidate.validClauses.insertMany clauses }

def render (candidate : Candidate) : String :=
  candidate.label ++ ": \x7b" ++
    ", ".intercalate (candidate.solution.entries.map fun entry =>
      entry.1 ++ " -> " ++ entry.2.conjunction.render) ++ "\x7d"

end Candidate

end Inhabit
