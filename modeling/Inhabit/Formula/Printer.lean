import Inhabit.Formula.Basic

/-! The text of formulas. Operands that are compound terms stand in parentheses;
precedence is never relied on. -/

namespace Inhabit

def LogicSort.render : LogicSort → String
  | .bool => "Bool"
  | .int => "Int"
  | .var name | .data name => name

def UnaryOp.symbol : UnaryOp → String
  | .neg => "-"
  | .not => "!"

def BinaryOp.symbol : BinaryOp → String
  | .times => "*"
  | .plus => "+"
  | .minus => "-"
  | .eq => "=="
  | .neq => "!="
  | .lt => "<"
  | .le => "<="
  | .gt => ">"
  | .ge => ">="
  | .and => "&&"
  | .or => "||"
  | .implies => "==>"
  | .iff => "<==>"

namespace Formula

def isCompound : Formula → Bool
  | .binary _ _ _ | .ite _ _ _ | .measure _ _ _ => true
  | _ => false

private def asOperand (f : Formula) (text : String) : String :=
  if f.isCompound then "(" ++ text ++ ")" else text

mutual

def render : Formula → String
  | .bool true => "True"
  | .bool false => "False"
  | .int n => toString n.toInt
  | .var _ name => name
  | .unknown [] name => name
  | .unknown pending name =>
      "[" ++ ", ".intercalate (renderEntries pending) ++ "]" ++ name
  | .unary op f => op.symbol ++ asOperand f (render f)
  | .binary op f g =>
      asOperand f (render f) ++ " " ++ op.symbol ++ " " ++ asOperand g (render g)
  | .ite f g h => "if " ++ render f ++ " then " ++ render g ++ " else " ++ render h
  | .measure _ name f => name ++ " " ++ asOperand f (render f)
termination_by structural f => f

def renderEntries : List (String × Formula) → List String
  | [] => []
  | (name, f) :: rest => (name ++ " -> " ++ render f) :: renderEntries rest
termination_by structural entries => entries

end

example :
    render (.unary .neg (.binary .plus (.int (-1)) (.unknown [("x", .top)] "u"))) =
      "-(-1 + [x -> True]u)" := by
  decide

end Formula

end Inhabit
