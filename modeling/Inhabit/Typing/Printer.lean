import Inhabit.Formula.Printer
import Inhabit.Typing.Assignment
import Inhabit.Typing.Constraint

/-! The text of types. A refinement that says nothing is left out, and what is
left is in braces after a bar. -/

namespace Inhabit

def BaseType.render : BaseType → String
  | .bool => "Bool"
  | .int => "Int"
  | .data name | .typeVar name => name

def Formula.renderRefinement (f : Formula) : Option String :=
  if f.isTrue then none else some f.render

namespace Skeleton

mutual

def renderWith (refinementText : ρ → Option String) : Skeleton ρ → String
  | .scalar base arguments refinement =>
      let head := " ".intercalate
        (base.render :: renderArguments refinementText arguments)
      match refinementText refinement with
      | some text => "\x7b" ++ head ++ " | " ++ text ++ "\x7d"
      | none => head
  | .function name (.function other argument result) last =>
      name ++ ":(" ++ renderWith refinementText (.function other argument result) ++
        ") -> " ++ renderWith refinementText last
  | .function name argument result =>
      name ++ ":" ++ renderWith refinementText argument ++ " -> " ++
        renderWith refinementText result
termination_by structural t => t

/-- Arguments of a datatype; one that is not a single word is in parentheses. -/
def renderArguments (refinementText : ρ → Option String) :
    List (Skeleton ρ) → List String
  | [] => []
  | .scalar base [] refinement :: rest =>
      (match refinementText refinement with
      | some text => "(\x7b" ++ base.render ++ " | " ++ text ++ "\x7d)"
      | none => base.render) :: renderArguments refinementText rest
  | t :: rest =>
      ("(" ++ renderWith refinementText t ++ ")") ::
        renderArguments refinementText rest
termination_by structural ts => ts

end

end Skeleton

def RefinedType.render (t : RefinedType) : String :=
  t.renderWith Formula.renderRefinement

def Shape.render (s : Shape) : String := s.renderWith fun _ => none

def Schema.render (schema : Schema) : String :=
  match schema.boundVars with
  | [] => schema.body.render
  | names => "<" ++ " ".intercalate names ++ "> . " ++ schema.body.render

def TypeAssignment.render (assignment : TypeAssignment) : String :=
  match assignment.entries with
  | [] => "\x7b\x7d"
  | entries =>
      "\x7b" ++ ",".intercalate (entries.map fun entry =>
        " " ++ entry.1 ++ ": " ++ entry.2.render) ++ " \x7d"

def Constraint.render : Constraint → String
  | .subtype _ left right => left.render ++ " <: " ++ right.render
  | .wellFormed _ type => "|- " ++ type.render
  | .wellFormedGuard _ guard => "|- " ++ guard.render

example :
    RefinedType.render (.scalar (.data "List")
      [.atom .int .top, .scalar (.data "Set") [.atom .bool .top] .top]
      (.unknown [] "u")) = "\x7bList Int (Set Bool) | u\x7d" := by
  decide

end Inhabit
