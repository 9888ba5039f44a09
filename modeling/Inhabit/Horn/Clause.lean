import Inhabit.Formula.Printer
import Inhabit.Formula.Unknowns

/-! Horn clauses over unknown predicates. -/

namespace Inhabit

structure HornClause where
  antecedent : Formula
  consequent : Formula
  deriving DecidableEq, Repr, Inhabited

namespace HornClause

@[reducible] def cmp : HornClause → HornClause → Ordering :=
  compareLex (compareOn antecedent) (compareOn consequent)

instance : Ord HornClause := ⟨cmp⟩

instance : Std.TransOrd HornClause := inferInstanceAs (Std.TransCmp cmp)

instance : Std.LawfulEqOrd HornClause where
  eq_of_compare {left right} equal := by
    have ⟨antecedents, consequents⟩ := compareLex_eq_eq.mp equal
    cases left; cases right
    rw [mk.injEq]
    exact ⟨Std.LawfulEqOrd.eq_of_compare antecedents,
      Std.LawfulEqOrd.eq_of_compare consequents⟩

def unknowns (clause : HornClause) : SortedSet String :=
  clause.antecedent.unknowns ∪ clause.consequent.unknowns

def toFormula (clause : HornClause) : Formula :=
  clause.antecedent.implies clause.consequent

def applySolution (solution : Solution) (clause : HornClause) : HornClause :=
  ⟨clause.antecedent.applySolution solution, clause.consequent.applySolution solution⟩

def render (clause : HornClause) : String :=
  clause.antecedent.render ++ " ==> " ++ clause.consequent.render

end HornClause

end Inhabit
