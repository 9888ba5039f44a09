import Inhabit.Horn.Candidate
import Inhabit.Typing.Constraint

/-! The state of one branch of a search. -/

namespace Inhabit

structure SearchState where
  /-- Constraints that wait to be simplified. -/
  pending : List Constraint := []
  /-- Atomic constraints that wait to become clauses. -/
  simple : List Constraint := []
  assignment : TypeAssignment := ∅
  qualifiers : QualifierMap := ∅
  /-- Clauses that the candidates have not been checked against. -/
  clauses : List HornClause := []
  candidates : List Candidate := []
  deriving DecidableEq, Inhabited

namespace SearchState

def start (candidate : Candidate) : SearchState := { candidates := [candidate] }

def addPending (constraints : List Constraint) (state : SearchState) : SearchState :=
  { state with pending := state.pending ++ constraints }

def addSimple (constraints : List Constraint) (state : SearchState) : SearchState :=
  { state with simple := state.simple ++ constraints }

def addClause (clause : HornClause) (state : SearchState) : SearchState :=
  { state with clauses := state.clauses ++ [clause] }

end SearchState

end Inhabit
