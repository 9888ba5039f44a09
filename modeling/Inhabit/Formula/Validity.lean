import Inhabit.Formula.Evaluation
import Inhabit.Formula.Order

/-! Validity over a bounded domain: a formula is checked under every assignment
of small values to its atoms. Datatype values and measure terms are taken to be
opaque integers. -/

namespace Inhabit

namespace Formula

/-- The terms whose values an assignment chooses, one for each occurrence, from
left to right: variables and measure terms. -/
def atomOccurrences : Formula → List Formula
  | .bool _ | .int _ | .unknown _ _ => []
  | .var sort name => [.var sort name]
  | .measure sort name f => [.measure sort name f]
  | .unary _ f => atomOccurrences f
  | .binary _ f g => atomOccurrences f ++ atomOccurrences g
  | .ite f g h => atomOccurrences f ++ (atomOccurrences g ++ atomOccurrences h)

def atoms (f : Formula) : List Formula := f.atomOccurrences.eraseDups

/-- The least and the greatest value of an atom: truth values for predicates,
and all numbers up to `bound` in absolute value otherwise. -/
def atomRange (bound : Int64) (atom : Formula) : Except Trap (Int × Int) :=
  if atom.sort = .bool then .ok (0, 1)
  else do return (← negate bound.toInt, bound.toInt)

def checkValues (check : Int → Except Trap Bool) :
    (count : Nat) → (first : Int) → Except Trap Bool
  | 0, _ => .ok true
  | count + 1, first => do
      if ← check first then checkValues check count (first + 1) else return false

/-- Whether a formula holds under every extension of `chosen` by values in the
given ranges. The last atom varies fastest, and the first assignment that
falsifies the formula ends the enumeration. -/
def holdsThroughout (f : Formula) :
    List (Formula × Int × Int) → (chosen : List (Formula × Int)) →
      Except Trap Bool
  | [], chosen => do
      return (← f.evaluate fun atom => (chosen.lookup atom).getD 0) != 0
  | (atom, least, greatest) :: rest, chosen =>
      checkValues (fun value => holdsThroughout f rest ((atom, value) :: chosen))
        (greatest - least + 1).toNat least

def isValid (bound : Int64) (f : Formula) : Except Trap Bool := do
  let ranges ← f.atoms.mapM fun atom => do return (atom, ← atomRange bound atom)
  f.holdsThroughout ranges []

end Formula

end Inhabit
