import Inhabit.Typing.Refined

/-! Refinement types under universally quantified type variables. -/

namespace Inhabit

inductive Schema where
  | mono (type : RefinedType)
  | forAll (name : String) (body : Schema)
  deriving DecidableEq, Repr, Inhabited

namespace Schema

/-- Quantify over `names`, the first one outermost. -/
def generalize (names : List String) (type : RefinedType) : Schema :=
  names.foldr .forAll (.mono type)

def body : Schema → RefinedType
  | .mono type => type
  | .forAll _ inner => inner.body

def boundVars : Schema → List String
  | .mono _ => []
  | .forAll name inner => name :: inner.boundVars

def isMono : Schema → Bool
  | .mono _ => true
  | .forAll _ _ => false

def arity (schema : Schema) : Nat := schema.body.arity

@[simp] theorem body_generalize (names : List String) (type : RefinedType) :
    (generalize names type).body = type := by
  induction names with
  | nil => rfl
  | cons _ _ induction => exact induction

@[simp] theorem boundVars_generalize (names : List String) (type : RefinedType) :
    (generalize names type).boundVars = names := by
  induction names with
  | nil => rfl
  | cons name _ induction => exact congrArg (name :: ·) induction

end Schema

end Inhabit
