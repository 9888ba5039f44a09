import Inhabit.Failure
import Inhabit.Horn.Candidate
import Inhabit.Program.Basic

/-! What a search asks of a solver of Horn clauses and of the sources of
qualifiers. -/

namespace Inhabit

abbrev Solving (σ : Type) := ExceptT Interrupt (StateM σ)

structure Solver (σ : Type) where
  initial : Candidate
  /-- The candidates that survive further clauses. None of them surviving means
  that the clauses cannot be satisfied. -/
  refine : List HornClause → QualifierMap → Program → List Candidate →
    Solving σ (List Candidate)
  prune : QualifierSpace → Solving σ QualifierSpace

structure QualifierSources where
  guards : List Formula → QualifierSpace
  refinements : List Formula → QualifierSpace

namespace QualifierSources

def none : QualifierSources := ⟨fun _ => .empty, fun _ => .empty⟩

end QualifierSources

/-! ## Templates -/

structure QualifierTemplates where
  /-- Formulas with the hole `?`. -/
  unary : List Formula := []
  /-- Formulas with the holes `?` and `?2`. -/
  binary : List Formula := []
  /-- The sort of the terms that fill the holes; any sort if there is none. -/
  sort : Option LogicSort := .none
  /-- The number of qualifiers that a predicate starts with, if not all. -/
  maxCount : Option Nat := .none
  deriving Inhabited

namespace QualifierTemplates

/-- Fill the templates with one hole by every term, and then those with two by
every pair of different terms. -/
def fill (templates : QualifierTemplates) (scalars : List Formula) :
    QualifierSpace :=
  let terms := scalars.filter fun term =>
    templates.sort.all fun sort => term.sort == sort
  let unary := terms.flatMap fun term =>
    templates.unary.map fun template => template.substitute [("?", term)]
  let binary := terms.flatMap fun first =>
    (terms.filter (· != first)).flatMap fun second =>
      templates.binary.map fun template =>
        template.substitute [("?", first), ("?2", second)]
  let space := QualifierSpace.ofList (unary ++ binary)
  { space with maxCount := templates.maxCount.getD space.maxCount }

end QualifierTemplates

end Inhabit
