import Inhabit.Typing.Schema

/-! Assignments of types to type variables.

An assigned type may mention further assigned variables, and applying an
assignment follows them to the end. An assignment without cycles meets no
variable twice on the way, so the number of its entries bounds the way. -/

namespace Inhabit

abbrev TypeAssignment := SortedMap String RefinedType

namespace RefinedType

mutual

/-- Replace the type variables that have an image, and instantiate the sorts of
all refinements. The refinement of a replaced variable is conjoined to its
image. -/
def instantiate (sorts : SortAssignment) (image : String → Option RefinedType) :
    RefinedType → RefinedType
  | .scalar (.typeVar name) [] refinement =>
      let refinement := refinement.instantiateSorts sorts
      match image name with
      | some t => addRefinement refinement t
      | none => .scalar (.typeVar name) [] refinement
  | .scalar base arguments refinement =>
      .scalar base (instantiateAll sorts image arguments)
        (refinement.instantiateSorts sorts)
  | .function name argument result =>
      .function name (instantiate sorts image argument)
        (instantiate sorts image result)
termination_by structural t => t

def instantiateAll (sorts : SortAssignment) (image : String → Option RefinedType) :
    List RefinedType → List RefinedType
  | [] => []
  | t :: rest => instantiate sorts image t :: instantiateAll sorts image rest
termination_by structural ts => ts

end

end RefinedType

namespace TypeAssignment

def sorts (assignment : TypeAssignment) : SortAssignment :=
  assignment.filterMapValues fun t => t.base?.map BaseType.sort

/-- The type assigned to a variable, with at most `links` assignments followed on
every path into it, counting the first. -/
def resolveWithin (assignment : TypeAssignment) (sorts : SortAssignment) :
    (links : Nat) → String → Option RefinedType
  | 0, _ => none
  | links + 1, name => (assignment.find? name).map
      (RefinedType.instantiate sorts (resolveWithin assignment sorts links))

def resolve (assignment : TypeAssignment) (name : String) : Option RefinedType :=
  assignment.resolveWithin assignment.sorts assignment.size name

def applyFormula (assignment : TypeAssignment) (f : Formula) : Formula :=
  f.instantiateSorts assignment.sorts

def apply (assignment : TypeAssignment) (t : RefinedType) : RefinedType :=
  t.instantiate assignment.sorts assignment.resolve

def applySchema (assignment : TypeAssignment) : Schema → Schema
  | .mono t => .mono (assignment.apply t)
  | .forAll name body =>
      .forAll name (applySchema (assignment.erase name) body)

example :
    (TypeAssignment.apply (.ofList [("a", .atom (.typeVar "b") .top),
      ("b", .atom .int .top)]) (.atom (.typeVar "a") .top)) = .atom .int .top := by
  decide

end TypeAssignment

end Inhabit
