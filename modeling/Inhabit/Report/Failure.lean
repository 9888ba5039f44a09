import Inhabit.Failure
import Inhabit.Report.Style

/-! Reports of failures to a person. -/

namespace Inhabit.Failure

def report (colors : Bool) (failure : Failure) : String :=
  let head := Style.paintIf colors .boldRed (failure.cause.label ++ ":") ++ " " ++
    Style.paintIf colors .bold failure.cause.message ++ "\n"
  match failure.context with
  | none => head
  | some context =>
      head ++ Style.paintIf colors .bold "-->" ++ " " ++ context.render ++ "\n"

end Inhabit.Failure
