import Inhabit.Collections.SortedSet
import Inhabit.Formula.Order
import Inhabit.Formula.Substitution

/-! The variables and unknowns of a formula, and the predicates chosen for
unknowns. -/

namespace Inhabit

/-- A predicate for an unknown: the conjunction of a set of qualifiers. -/
abbrev Valuation := SortedSet Formula

abbrev Solution := SortedMap String Valuation

def Valuation.conjunction (valuation : Valuation) : Formula :=
  Formula.conjunction valuation.toList

namespace Formula

mutual

def variableOccurrences : Formula → List String
  | .bool _ | .int _ => []
  | .var _ name => [name]
  | .unknown pending _ => variableOccurrencesEntries pending
  | .unary _ f | .measure _ _ f => variableOccurrences f
  | .binary _ f g => variableOccurrences f ++ variableOccurrences g
  | .ite f g h =>
      variableOccurrences f ++ (variableOccurrences g ++ variableOccurrences h)
termination_by structural f => f

def variableOccurrencesEntries : List (String × Formula) → List String
  | [] => []
  | (_, f) :: rest => variableOccurrences f ++ variableOccurrencesEntries rest
termination_by structural entries => entries

end

def freeVariables (f : Formula) : SortedSet String :=
  .ofList f.variableOccurrences

/-- The unknowns of a formula, one for each occurrence. What a pending renaming
mentions does not count. -/
def unknownOccurrences : Formula → List String
  | .bool _ | .int _ | .var _ _ => []
  | .unknown _ name => [name]
  | .unary _ f | .measure _ _ f => unknownOccurrences f
  | .binary _ f g => unknownOccurrences f ++ unknownOccurrences g
  | .ite f g h =>
      unknownOccurrences f ++ (unknownOccurrences g ++ unknownOccurrences h)

def unknowns (f : Formula) : SortedSet String := .ofList f.unknownOccurrences

def hasUnknowns (f : Formula) : Bool := !f.unknownOccurrences.isEmpty

/-- Replace each unknown by its predicate under its pending renaming. An unknown
without a predicate stays. -/
def applySolution (solution : Solution) : Formula → Formula
  | .unknown pending name =>
      match solution.find? name with
      | some valuation => valuation.conjunction.substitute pending
      | none => .unknown pending name
  | .bool b => .bool b
  | .int n => .int n
  | .var sort name => .var sort name
  | .unary op f => .unary op (applySolution solution f)
  | .binary op f g => .binary op (applySolution solution f) (applySolution solution g)
  | .ite f g h =>
      .ite (applySolution solution f) (applySolution solution g)
        (applySolution solution h)
  | .measure sort name f => .measure sort name (applySolution solution f)

end Formula

end Inhabit
