import Inhabit.Failure
import Inhabit.Names

/-! Instantiation of schemas and unification of type variables.

A type variable that the scope does not bind is free, and unification binds it to
a fresh copy of a type: the skeleton of that type, with new variables for free
ones and new unknowns for all refinements. The refinements of the two sides stay
apart and are related by subtyping later. -/

namespace Inhabit

def Schema.instantiate (schema : Schema) : Naming RefinedType := do
  let images ← schema.boundVars.mapM fun name => do
    return (name, Skeleton.atom (.typeVar (← freshName Stem.typeVar)) Formula.top)
  return TypeAssignment.apply (.ofList images) schema.body

namespace Environment

def freeVar? (env : Environment) : RefinedType → Option String
  | .scalar (.typeVar name) [] _ => if env.isBound name then none else some name
  | _ => none

mutual

/-- A copy of the skeleton of a type with nothing shared. -/
def freshCopy (env : Environment) : RefinedType → Naming RefinedType
  | .scalar base arguments refinement => do
      match env.freeVar? (.scalar base arguments refinement) with
      | some _ => return .atom (.typeVar (← freshName Stem.typeVar)) .top
      | none =>
          let arguments ← freshCopies env arguments
          return .scalar base arguments (.unknown [] (← freshName Stem.unknown))
  | .function name argument result => do
      let argument ← freshCopy env argument
      return .function name argument (← freshCopy env result)
termination_by structural t => t

def freshCopies (env : Environment) : List RefinedType → Naming (List RefinedType)
  | [] => return []
  | t :: rest => do
      let t ← freshCopy env t
      return t :: (← freshCopies env rest)
termination_by structural ts => ts

end

end Environment

namespace TypeAssignment

def occursIn (assignment : TypeAssignment) (name : String) (t : RefinedType) :
    Bool :=
  (assignment.apply t).typeVars.contains name

/-- Bind a free variable to a fresh copy of a type, and require the copy to be
well formed. A variable that occurs in the type cannot be bound to it. -/
def unify (assignment : TypeAssignment) (env : Environment) (name : String)
    (t : RefinedType) : ExceptT Failure Naming (TypeAssignment × Constraint) := do
  if assignment.occursIn name t then
    throw ⟨.occursCheck name (assignment.apply t), none⟩
  else
    let copy ← env.freshCopy t
    return (assignment.insert name copy, .wellFormed env copy)

end TypeAssignment

end Inhabit
