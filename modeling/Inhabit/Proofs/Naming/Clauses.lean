import Inhabit.Proofs.Naming.Scopes
import Inhabit.Proofs.Validity.Outcomes
import Inhabit.Search.Solve

/-! Clauses of scopes that differ in a name. -/

namespace Inhabit

open Search

variable {old new : String} {values others : Formula → Int}

theorem Formula.outcome_rename (values : Formula → Int) (f : Formula) :
    (f.rename old new).outcome values =
      f.outcome fun atom => values (atom.rename old new) := by
  have same := congrArg Outcome.ofResult
    (evaluate_rename values f : (f.rename old new).evaluate values = _)
  cases f with
  | bool b => cases b <;> rfl
  | int | var | unknown | unary | binary | ite | measure => exact same

theorem outcome_subtypeClause {env other : Environment}
    {left right left' right' : Formula}
    (positives : ∀ outcome, outcome ∈ (other.positives ∅).toList.map (Formula.outcome others) ↔
      outcome ∈ (env.positives ∅).toList.map (Formula.outcome values))
    (negatives : ∀ outcome, outcome ∈ (other.negatives ∅).toList.map (Formula.outcome others) ↔
      outcome ∈ (env.negatives ∅).toList.map (Formula.outcome values))
    (sameLeft : left'.outcome others = left.outcome values)
    (sameRight : right'.outcome others = right.outcome values) :
    (subtypeClause other ∅ left' right').toFormula.outcome others =
      (subtypeClause env ∅ left right).toFormula.outcome values := by
  unfold HornClause.toFormula subtypeClause
  rw [Formula.outcome_implies, Formula.outcome_implies, Formula.outcome_and,
    Formula.outcome_and, Formula.outcome_or, Formula.outcome_or,
    Formula.outcome_conjunction, Formula.outcome_conjunction,
    Formula.outcome_disjunction, Formula.outcome_disjunction, sameLeft, sameRight,
    Outcome.foldl_first_congr Outcome.meetRank_injective _ positives,
    Outcome.foldl_first_congr Outcome.joinRank_injective _ negatives]

/-- Formulas without the new name come to the same under the one values as what they are
renamed to under the others. -/
def Agree (old new : String) (values others : Formula → Int) : Prop :=
  ∀ f : Formula, new ∉ f.variableOccurrences →
    (f.rename old new).outcome others = f.outcome values

theorem Agree.facts (agree : Agree old new values others) {facts otherFacts : SortedSet Formula}
    (absent : ∀ fact ∈ facts, new ∉ fact.variableOccurrences)
    (renamed : ∀ fact, fact ∈ otherFacts ↔ ∃ source ∈ facts, source.rename old new = fact)
    (outcome : Outcome) :
    outcome ∈ otherFacts.toList.map (Formula.outcome others) ↔
      outcome ∈ facts.toList.map (Formula.outcome values) := by
  simp only [List.mem_map, SortedSet.mem_toList, renamed]
  constructor
  · rintro ⟨_, ⟨source, member, rfl⟩, rfl⟩
    exact ⟨source, member, (agree source (absent source member)).symm⟩
  · rintro ⟨source, member, rfl⟩
    exact ⟨_, ⟨source, member, rfl⟩, agree source (absent source member)⟩

theorem Environment.RenamesTo.outcome_subtypeClause {env other : Environment}
    (scopes : env.RenamesTo old new other) (agree : Agree old new values others)
    {left right : Formula} (leftAbsent : new ∉ left.variableOccurrences)
    (rightAbsent : new ∉ right.variableOccurrences) :
    (subtypeClause other ∅ (left.rename old new) (right.rename old new)).toFormula.outcome
        others =
      (subtypeClause env ∅ left right).toFormula.outcome values :=
  Inhabit.outcome_subtypeClause
    (agree.facts scopes.fresh.positives scopes.positives)
    (agree.facts scopes.fresh.negatives scopes.negatives)
    (agree left leftAbsent) (agree right rightAbsent)

theorem Formula.admits_rename {bound : Int64} {atom : Formula} {value : Int} :
    Admits bound (atom.rename old new) value ↔ Admits bound atom value := by
  rw [Admits, Admits, sort_rename]

/-- The clauses are valid together, whatever the bound. -/
def SameValidity (clause other : HornClause) : Prop :=
  ∀ bound : Int64, 0 ≤ bound.toInt →
    (clause.toFormula.isValid bound = .ok true ↔ other.toFormula.isValid bound = .ok true)

theorem SameValidity.refl (clause : HornClause) : SameValidity clause clause :=
  fun _ _ => Iff.rfl

theorem Environment.RenamesTo.sameValidity {env other : Environment}
    (scopes : env.RenamesTo old new other) {left right : Formula}
    (leftAbsent : new ∉ left.variableOccurrences)
    (rightAbsent : new ∉ right.variableOccurrences) :
    SameValidity (subtypeClause env ∅ left right)
      (subtypeClause other ∅ (left.rename old new) (right.rename old new)) := by
  intro bound nonnegative
  rw [Formula.isValid_iff nonnegative, Formula.isValid_iff nonnegative]
  constructor
  · intro valid values inRange
    have agree : Agree old new (fun atom => values (atom.rename old new)) values :=
      fun f _ => f.outcome_rename values
    have holds := valid (fun atom => values (atom.rename old new))
      fun atom => Formula.admits_rename.mp (inRange _)
    rw [Formula.holds_iff] at holds ⊢
    rwa [scopes.outcome_subtypeClause agree leftAbsent rightAbsent]
  · intro valid values inRange
    have agree : Agree old new values fun atom => values (atom.rename new old) := by
      intro f absent
      rw [← Formula.outcome_rename, Formula.rename_rename absent]
    have holds := valid (fun atom => values (atom.rename new old))
      fun atom => Formula.admits_rename.mp (inRange _)
    rw [Formula.holds_iff] at holds ⊢
    rwa [scopes.outcome_subtypeClause agree leftAbsent rightAbsent] at holds

end Inhabit
