import Inhabit.Formula.Unknowns
import Inhabit.Typing.Skeleton

/-! Refinement types: skeletons whose scalars are refined by formulas about
their value. -/

namespace Inhabit

abbrev RefinedType := Skeleton Formula

namespace Shape

mutual

/-- Refine every scalar by a literal: `weakest` where the type is covariant, and
its negation in the arguments of functions. -/
def refine (weakest : Bool) : Shape → RefinedType
  | .scalar base arguments _ => .scalar base (refineAll weakest arguments) (.bool weakest)
  | .function name argument result =>
      .function name (refine (!weakest) argument) (refine weakest result)
termination_by structural s => s

def refineAll (weakest : Bool) : List Shape → List RefinedType
  | [] => []
  | s :: rest => refine weakest s :: refineAll weakest rest
termination_by structural ss => ss

end

def refineTop (s : Shape) : RefinedType := refine true s

def refineBottom (s : Shape) : RefinedType := refine false s

end Shape

namespace RefinedType

/-- Conjoin a formula to the refinement of a scalar; a function is left alone. -/
def addRefinement (formula : Formula) : RefinedType → RefinedType
  | .scalar base arguments refinement =>
      .scalar base arguments (refinement.and formula)
  | t => t

def variableRefinement (name : String) (base : BaseType) : Formula :=
  (Formula.value base.sort).equals (.var base.sort name)

mutual

/-- Replace variables in every refinement. The name of an argument is bound in
the result of its function, so a replacement for it stops there. -/
def substitute (substitution : Substitution) : RefinedType → RefinedType
  | .scalar base arguments refinement =>
      .scalar base (substituteAll substitution arguments)
        (refinement.substitute substitution)
  | .function name argument result =>
      .function name (substitute substitution argument)
        (substitute (Entries.erase name substitution) result)
termination_by structural t => t

def substituteAll (substitution : Substitution) :
    List RefinedType → List RefinedType
  | [] => []
  | t :: rest => substitute substitution t :: substituteAll substitution rest
termination_by structural ts => ts

end

/-- Rename a variable of type `oldType` in every refinement. Refinements never
speak of functions, so nothing is renamed when `oldType` is one. -/
def renameVar (t : RefinedType) (old new : String) (oldType : RefinedType) :
    RefinedType :=
  match oldType with
  | .scalar base _ _ => t.substitute [(old, .var base.sort new)]
  | .function _ _ _ => t

mutual

def unknownOccurrences : RefinedType → List String
  | .scalar _ arguments refinement =>
      refinement.unknownOccurrences ++ unknownOccurrencesAll arguments
  | .function _ argument result =>
      unknownOccurrences argument ++ unknownOccurrences result
termination_by structural t => t

def unknownOccurrencesAll : List RefinedType → List String
  | [] => []
  | t :: rest => unknownOccurrences t ++ unknownOccurrencesAll rest
termination_by structural ts => ts

end

def unknowns (t : RefinedType) : SortedSet String := .ofList t.unknownOccurrences

def applySolution (solution : Solution) (t : RefinedType) : RefinedType :=
  t.mapRefinements (Formula.applySolution solution)

end RefinedType

end Inhabit
