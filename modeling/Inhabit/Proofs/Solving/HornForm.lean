import Inhabit.Proofs.Solving.Weakening
import Inhabit.Proofs.Unknowns.Formulas
import Inhabit.Proofs.Validity.Connectives

/-! Clauses in Horn form, under solutions that choose fewer qualifiers.

With fewer qualifiers a premise asks for less. A conclusion with an unknown holds as soon
as it does for each qualifier of the unknown on its own, which is what weakening goes
by. -/

namespace Inhabit

/-! ## Forms -/

namespace Formula

inductive IsPremise : Formula → Prop where
  | known {f : Formula} (known : f.Known) : IsPremise f
  | unknown (pending : Substitution) (name : String) : IsPremise (.unknown pending name)
  | and {f g : Formula} (left : IsPremise f) (right : IsPremise g) :
      IsPremise (.binary .and f g)

/-- Known formulas, unknowns, and disjunctions of the one with the other. -/
inductive IsConclusion : Formula → Prop where
  | known {f : Formula} (known : f.Known) : IsConclusion f
  | unknown (pending : Substitution) (name : String) : IsConclusion (.unknown pending name)
  | knownOr {f : Formula} (known : f.Known) (pending : Substitution) (name : String) :
      IsConclusion (.binary .or f (.unknown pending name))
  | orKnown {f : Formula} (known : f.Known) (pending : Substitution) (name : String) :
      IsConclusion (.binary .or (.unknown pending name) f)

end Formula

namespace HornClause

structure InHornForm (clause : HornClause) : Prop where
  premise : clause.antecedent.IsPremise
  conclusion : clause.consequent.IsConclusion

end HornClause

/-! ## Fewer qualifiers -/

namespace Solution

/-- The solutions are for the same unknowns, and the lower one chooses no qualifiers but
those that the other chooses. -/
structure Below (lower solution : Solution) : Prop where
  contains : ∀ unknown, lower.contains unknown = solution.contains unknown
  fewer : ∀ unknown, ∀ qualifier ∈ lower.chosen unknown, qualifier ∈ solution.chosen unknown

theorem Below.refl (solution : Solution) : solution.Below solution :=
  ⟨fun _ => rfl, fun _ _ => id⟩

theorem Below.trans {first second third : Solution} (low : first.Below second)
    (high : second.Below third) : first.Below third where
  contains unknown := (low.contains unknown).trans (high.contains unknown)
  fewer unknown _ member := high.fewer unknown _ (low.fewer unknown _ member)

theorem contains_insert_of_contains {solution : Solution} {unknown : String}
    (contained : solution.contains unknown = true) (valuation : Valuation)
    (other : String) :
    (solution.insert unknown valuation).contains other = solution.contains other := by
  rw [SortedMap.contains, SortedMap.find?_insert]
  split
  case isTrue same => rw [same, contained, Option.isSome_some]
  case isFalse => rfl

theorem Below.insert {lower solution : Solution} (below : lower.Below solution)
    {unknown : String} (contained : solution.contains unknown = true)
    {valuation : Valuation}
    (fewer : ∀ qualifier ∈ lower.chosen unknown, qualifier ∈ valuation) :
    lower.Below (solution.insert unknown valuation) where
  contains other := by rw [contains_insert_of_contains contained, below.contains]
  fewer other qualifier member := by
    rw [chosen_insert]
    split
    case isTrue same => exact fewer qualifier (same ▸ member)
    case isFalse => exact below.fewer other qualifier member

theorem contains_of_size_filter_ne {solution : Solution} {unknown : String}
    {keep : Formula → Bool}
    (smaller : ((solution.chosen unknown).filter keep).size ≠
      (solution.chosen unknown).size) : solution.contains unknown = true := by
  cases found : solution.find? unknown with
  | none =>
      rw [chosen, found] at smaller
      exact absurd rfl smaller
  | some valuation => rw [SortedMap.contains, found, Option.isSome_some]

end Solution

/-! ## Truth -/

namespace Formula

variable {values : Formula → Int} {solution lower : Solution}

theorem Known.applySolution {f : Formula} (known : f.Known) (solution : Solution) :
    f.applySolution solution = f := by
  unfold Known at known
  induction f using Formula.induction with
  | bool | int | var => rfl
  | unknown => cases known
  | unary op f induction | measure sort name f induction =>
      rw [Formula.applySolution, induction known]
  | binary op f g first second =>
      rcases List.append_eq_nil_iff.mp known with ⟨left, right⟩
      rw [Formula.applySolution, first left, second right]
  | ite f g h first second third =>
      rcases List.append_eq_nil_iff.mp known with ⟨condition, branches⟩
      rcases List.append_eq_nil_iff.mp branches with ⟨left, right⟩
      rw [Formula.applySolution, first condition, second left, third right]

theorem applySolution_unknown {pending : Substitution} {name : String}
    {valuation : Valuation} (found : solution.find? name = some valuation) :
    (unknown pending name).applySolution solution =
      valuation.conjunction.substitute pending := by
  rw [applySolution, found]

theorem applySolution_singleton (pending : Substitution) (name : String)
    (qualifier : Formula) :
    (unknown pending name).applySolution (solution.insert name (.singleton qualifier)) =
      qualifier.substitute pending :=
  applySolution_unknown (SortedMap.find?_insert_self _ _ _)

theorem exists_fails_of_fails_unknown {pending : Substitution} {name : String}
    (fails : ((unknown pending name).applySolution solution).Fails values) :
    ∃ qualifier ∈ solution.chosen name, (qualifier.substitute pending).Fails values := by
  cases found : solution.find? name with
  | none =>
      rw [applySolution, found] at fails
      cases fails
  | some valuation =>
      rw [applySolution_unknown found] at fails
      rw [Solution.chosen_eq found]
      exact exists_fails_of_fails_conjunction fails

theorem holds_of_holds_unknown {pending : Substitution} {name : String}
    (holds : ((unknown pending name).applySolution solution).Holds values) :
    ∀ qualifier ∈ solution.chosen name, (qualifier.substitute pending).Holds values := by
  cases found : solution.find? name with
  | none =>
      rw [Solution.chosen, found]
      exact fun _ => (absurd · (SortedSet.not_mem_empty _))
  | some valuation =>
      rw [applySolution_unknown found] at holds
      rw [Solution.chosen_eq found]
      exact holds_conjunction_substitute.mp holds

theorem IsPremise.not_fails {f : Formula} (premise : f.IsPremise)
    (below : lower.Below solution) (holds : (f.applySolution solution).Holds values) :
    ¬ (f.applySolution lower).Fails values := by
  induction premise with
  | known known =>
      rw [known.applySolution] at holds ⊢
      exact holds.not_fails
  | unknown pending name =>
      intro fails
      rcases exists_fails_of_fails_unknown fails with ⟨qualifier, member, fails⟩
      exact (holds_of_holds_unknown holds qualifier (below.fewer name _ member)).not_fails fails
  | and _ _ first second =>
      intro fails
      have both := holds_binary_and.mp holds
      exact (fails_of_fails_binary_and fails).elim (first both.1) (second both.2)

theorem IsConclusion.unknowns_cases {f : Formula} (conclusion : f.IsConclusion) :
    f.Known ∨ ∃ name, f.unknowns.toList = [name] ∧ name ∈ f.unknownOccurrences := by
  cases conclusion with
  | known known => exact .inl known
  | unknown pending name => exact .inr ⟨name, rfl, List.mem_cons_self⟩
  | knownOr known pending name =>
      refine .inr ⟨name, ?_, List.mem_append_right _ List.mem_cons_self⟩
      rw [unknowns, unknownOccurrences, known]
      rfl
  | orKnown known pending name =>
      refine .inr ⟨name, ?_, List.mem_append_left _ List.mem_cons_self⟩
      rw [unknowns, unknownOccurrences, known]
      rfl

theorem IsConclusion.not_fails_singleton {f : Formula} (conclusion : f.IsConclusion)
    {name : String} (holds : (f.applySolution lower).Holds values)
    (occurs : name ∈ f.unknownOccurrences) {qualifier : Formula}
    (member : qualifier ∈ lower.chosen name) :
    ¬ (f.applySolution (solution.insert name (.singleton qualifier))).Fails values := by
  cases conclusion with
  | known known =>
      rw [known] at occurs
      cases occurs
  | unknown pending other =>
      rw [List.mem_singleton.mp occurs] at member ⊢
      rw [applySolution_singleton]
      exact (holds_of_holds_unknown holds qualifier member).not_fails
  | knownOr known pending other =>
      rw [unknownOccurrences, known, List.nil_append] at occurs
      rw [List.mem_singleton.mp occurs] at member ⊢
      rw [Formula.applySolution, known.applySolution, fails_binary_or, applySolution_singleton]
      rw [Formula.applySolution, known.applySolution] at holds
      rintro ⟨first, second⟩
      rcases holds_of_holds_binary_or holds with holds | holds
      · exact holds.not_fails first
      · exact (holds_of_holds_unknown holds qualifier member).not_fails second
  | orKnown known pending other =>
      rw [unknownOccurrences, known, List.append_nil] at occurs
      rw [List.mem_singleton.mp occurs] at member ⊢
      rw [Formula.applySolution, known.applySolution, fails_binary_or, applySolution_singleton]
      rw [Formula.applySolution, known.applySolution] at holds
      rintro ⟨first, second⟩
      rcases holds_of_holds_binary_or holds with holds | holds
      · exact (holds_of_holds_unknown holds qualifier member).not_fails first
      · exact holds.not_fails second

theorem IsConclusion.exists_fails_singleton {f : Formula} (conclusion : f.IsConclusion)
    {name : String} (fails : (f.applySolution solution).Fails values)
    (occurs : name ∈ f.unknownOccurrences) :
    ∃ qualifier ∈ solution.chosen name,
      (f.applySolution (solution.insert name (.singleton qualifier))).Fails values := by
  cases conclusion with
  | known known =>
      rw [known] at occurs
      cases occurs
  | unknown pending other =>
      rw [List.mem_singleton.mp occurs]
      simp only [applySolution_singleton]
      exact exists_fails_of_fails_unknown fails
  | knownOr known pending other =>
      rw [unknownOccurrences, known, List.nil_append] at occurs
      rw [List.mem_singleton.mp occurs]
      rw [Formula.applySolution, known.applySolution, fails_binary_or] at fails
      rcases exists_fails_of_fails_unknown fails.2 with ⟨qualifier, member, second⟩
      refine ⟨qualifier, member, ?_⟩
      rw [Formula.applySolution, known.applySolution, fails_binary_or, applySolution_singleton]
      exact ⟨fails.1, second⟩
  | orKnown known pending other =>
      rw [unknownOccurrences, known, List.append_nil] at occurs
      rw [List.mem_singleton.mp occurs]
      rw [Formula.applySolution, known.applySolution, fails_binary_or] at fails
      rcases exists_fails_of_fails_unknown fails.1 with ⟨qualifier, member, first⟩
      refine ⟨qualifier, member, ?_⟩
      rw [Formula.applySolution, known.applySolution, fails_binary_or, applySolution_singleton]
      exact ⟨first, fails.2⟩

end Formula

end Inhabit
