import Inhabit.Collections.SortedMap
import Inhabit.Formula.Order
import Inhabit.Formula.Printer

/-! The qualifiers that the predicate of an unknown is built from. -/

namespace Inhabit

structure QualifierSpace where
  qualifiers : List Formula
  /-- How many qualifiers, from the first on, a predicate may start with. -/
  maxCount : Nat
  deriving DecidableEq, Repr, Inhabited

abbrev QualifierMap := SortedMap String QualifierSpace

namespace QualifierSpace

def ofList (qualifiers : List Formula) : QualifierSpace :=
  ⟨qualifiers, qualifiers.length⟩

def empty : QualifierSpace := ofList []

def size (space : QualifierSpace) : Nat := space.qualifiers.length

def isEmpty (space : QualifierSpace) : Bool := space.qualifiers.isEmpty

def prune (space : QualifierSpace) : QualifierSpace :=
  let qualifiers := space.qualifiers.eraseDups.filter fun q => !q.isTrue
  ⟨qualifiers, min space.maxCount qualifiers.length⟩

def render (space : QualifierSpace) : String :=
  "<" ++ ", ".intercalate (space.qualifiers.map Formula.render) ++ "> (max " ++
    toString space.maxCount ++ ")"

end QualifierSpace

end Inhabit
