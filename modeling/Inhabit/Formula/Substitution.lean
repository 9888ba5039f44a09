import Inhabit.Collections.SortedMap
import Inhabit.Formula.Basic

/-! Replacing variables by formulas, and sort variables by sorts.

An unknown is not expanded by a substitution: what would happen to the predicate
chosen for it is composed into its pending renaming. -/

namespace Inhabit

/-- Formulas for variables, in the order of the variables. -/
abbrev Substitution := List (String × Formula)

abbrev SortAssignment := SortedMap String LogicSort

namespace Substitution

/-- The entries of `later` for variables that `first` leaves alone join it. -/
def extend (first later : Substitution) : Substitution :=
  later.foldl (fun done entry =>
    if (Entries.find? entry.1 done).isSome then done
    else Entries.insert entry.1 entry.2 done) first

end Substitution

namespace Formula

mutual

def substitute (substitution : Substitution) : Formula → Formula
  | .bool b => .bool b
  | .int n => .int n
  | .var sort name => (Entries.find? name substitution).getD (.var sort name)
  | .unknown pending name =>
      .unknown (Substitution.extend (substituteEntries substitution pending)
        substitution) name
  | .unary op f => .unary op (substitute substitution f)
  | .binary op f g =>
      .binary op (substitute substitution f) (substitute substitution g)
  | .ite f g h =>
      .ite (substitute substitution f) (substitute substitution g)
        (substitute substitution h)
  | .measure sort name f => .measure sort name (substitute substitution f)
termination_by structural f => f

def substituteEntries (substitution : Substitution) :
    List (String × Formula) → List (String × Formula)
  | [] => []
  | (name, f) :: rest =>
      (name, substitute substitution f) :: substituteEntries substitution rest
termination_by structural entries => entries

end

def substituteVar (f : Formula) (name : String) (replacement : Formula) : Formula :=
  f.substitute [(name, replacement)]

end Formula

/-- The substitution that acts like `first` followed by `later`. -/
def Substitution.compose (first later : Substitution) : Substitution :=
  extend (Formula.substituteEntries later first) later

example :
    Substitution.compose [("x", .var .int "y")] [("y", .int 1), ("z", .int 2)] =
      [("x", .int 1), ("y", .int 1), ("z", .int 2)] := rfl

/-! ## Sorts -/

namespace LogicSort

def followWithin (sorts : SortAssignment) : (links : Nat) → LogicSort → LogicSort
  | links + 1, .var name =>
      match sorts.find? name with
      | some sort => followWithin sorts links sort
      | none => .var name
  | _, sort => sort

/-- Follow the assignments of sort variables to the end. No variable is met
twice unless the assignments form a cycle, so the number of entries bounds the
way. -/
def instantiate (sorts : SortAssignment) (sort : LogicSort) : LogicSort :=
  sort.followWithin sorts sorts.size

end LogicSort

namespace Formula

mutual

def instantiateSorts (sorts : SortAssignment) : Formula → Formula
  | .bool b => .bool b
  | .int n => .int n
  | .var sort name => .var (sort.instantiate sorts) name
  | .unknown pending name => .unknown (instantiateSortsEntries sorts pending) name
  | .unary op f => .unary op (instantiateSorts sorts f)
  | .binary op f g =>
      .binary op (instantiateSorts sorts f) (instantiateSorts sorts g)
  | .ite f g h =>
      .ite (instantiateSorts sorts f) (instantiateSorts sorts g)
        (instantiateSorts sorts h)
  | .measure sort name f =>
      .measure (sort.instantiate sorts) name (instantiateSorts sorts f)
termination_by structural f => f

def instantiateSortsEntries (sorts : SortAssignment) :
    List (String × Formula) → List (String × Formula)
  | [] => []
  | (name, f) :: rest =>
      (name, instantiateSorts sorts f) :: instantiateSortsEntries sorts rest
termination_by structural entries => entries

end

end Formula

end Inhabit
