import Inhabit.Formula.Basic

/-! The value of a formula. Values are integers in the range of a signed 64-bit
word; a predicate holds when its value is not zero. Sums, differences and
products stop at the ends of the range, but a negation has to be exact. -/

namespace Inhabit

inductive Trap where
  /-- The least integer was negated. -/
  | negationOverflow
  deriving DecidableEq, Repr, Inhabited

def Trap.message : Trap → String
  | .negationOverflow => "attempt to negate with overflow"

namespace Formula

def leastValue : Int := -9223372036854775808

def greatestValue : Int := 9223372036854775807

def saturate (n : Int) : Int :=
  if n < leastValue then leastValue
  else if greatestValue < n then greatestValue
  else n

def negate (n : Int) : Except Trap Int :=
  if n = leastValue then .error .negationOverflow else .ok (-n)

def ofTruth (holds : Bool) : Int := if holds then 1 else 0

end Formula

def BinaryOp.apply : BinaryOp → Int → Int → Int
  | .times, l, r => Formula.saturate (l * r)
  | .plus, l, r => Formula.saturate (l + r)
  | .minus, l, r => Formula.saturate (l - r)
  | .eq, l, r => Formula.ofTruth (l == r)
  | .neq, l, r => Formula.ofTruth (l != r)
  | .lt, l, r => Formula.ofTruth (l < r)
  | .le, l, r => Formula.ofTruth (l ≤ r)
  | .gt, l, r => Formula.ofTruth (r < l)
  | .ge, l, r => Formula.ofTruth (r ≤ l)
  | .and, l, r => Formula.ofTruth (l != 0 && r != 0)
  | .or, l, r => Formula.ofTruth (l != 0 || r != 0)
  | .implies, l, r => Formula.ofTruth (l == 0 || r != 0)
  | .iff, l, r => Formula.ofTruth ((l != 0) == (r != 0))

namespace Formula

/-- The value of a formula when `assignment` gives the values of variables and
measure terms. An unknown counts as true. Both operands of a binary operator are
evaluated, but only one branch of a conditional. -/
def evaluate (assignment : Formula → Int) : Formula → Except Trap Int
  | .bool b => .ok (ofTruth b)
  | .int n => .ok n.toInt
  | .var sort name => .ok (assignment (.var sort name))
  | .measure sort name f => .ok (assignment (.measure sort name f))
  | .unknown _ _ => .ok 1
  | .unary .neg f => do negate (← evaluate assignment f)
  | .unary .not f => do return ofTruth ((← evaluate assignment f) == 0)
  | .binary op f g => do
      let left ← evaluate assignment f
      let right ← evaluate assignment g
      return op.apply left right
  | .ite f g h => do
      if (← evaluate assignment f) != 0 then evaluate assignment g
      else evaluate assignment h

example : evaluate (fun _ => 0) (.unary .neg (.int Int64.minValue)) =
    .error .negationOverflow := by rfl

end Formula

end Inhabit
