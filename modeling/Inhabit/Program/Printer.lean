import Inhabit.Formula.Printer
import Inhabit.Program.Basic

/-! The text of programs. Types are not shown. Only the argument of an
application is put in parentheses, unless it is a symbol. -/

namespace Inhabit.Program

mutual

def render : Program → String
  | .symbol name _ => name
  | .app function (.symbol name _) _ => render function ++ " " ++ name
  | .app function argument _ => render function ++ " (" ++ render argument ++ ")"
  | .lambda parameter body _ => "\\" ++ parameter ++ " . " ++ render body
  | .fix names body _ => "fix " ++ " ".intercalate names ++ " . " ++ render body
  | .ite guard thenBranch elseBranch _ =>
      "if " ++ guard.render ++ " then " ++ render thenBranch ++ " else " ++
        render elseBranch
  | .caseOf scrutinee cases _ =>
      "match " ++ render scrutinee ++ " with " ++ " | ".intercalate (renderCases cases)
termination_by structural program => program

def renderCases : List (Case Program) → List String
  | [] => []
  | ⟨constructorName, binders, body⟩ :: rest =>
      (" ".intercalate (constructorName :: binders) ++ " -> " ++ render body) ::
        renderCases rest
termination_by structural cases => cases

end

end Inhabit.Program
