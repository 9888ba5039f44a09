import Inhabit.Proofs.Solving.HornForm
import Inhabit.Proofs.Substitution.Composition
import Inhabit.Proofs.Unknowns.Types

/-! Substituting before or after the unknowns are solved.

A substitution waits at an unknown and is applied to the predicate that arrives there.
What it puts in must not speak of unknowns itself, since these would be solved on one
way and left on the other. -/

namespace Inhabit

def Substitution.Known (substitution : Substitution) : Prop :=
  ∀ entry ∈ substitution, entry.2.Known

instance (substitution : Substitution) : Decidable substitution.Known :=
  inferInstanceAs (Decidable (∀ entry ∈ substitution, entry.2.Known))

theorem Substitution.Known.erase {substitution : Substitution} (known : substitution.Known)
    (name : String) : Substitution.Known (Entries.erase name substitution) :=
  fun entry member => known entry (List.mem_filter.mp member).1

def Solution.Ordered (solution : Solution) : Prop :=
  ∀ entry ∈ solution.entries, ∀ qualifier ∈ entry.2.toList, qualifier.Ordered

instance (solution : Solution) : Decidable solution.Ordered :=
  inferInstanceAs (Decidable (∀ entry ∈ solution.entries, ∀ _ ∈ entry.2.toList, _))

namespace Formula

theorem ordered_conjunction {formulas : List Formula}
    (all : ∀ f ∈ formulas, f.Ordered) : (conjunction formulas).Ordered :=
  foldl_closed (motive := Ordered)
    (fun _ _ left right => and_cases (motive := Ordered) left right ⟨left, right⟩)
    trivial all

variable {solution : Solution} {substitution : Substitution}

/-- What is pending for an unknown is its predicate's first substitution, and the one
that reaches the unknown later is its second. -/
theorem substitute_applySolution (ordered : solution.Ordered) (known : substitution.Known)
    (f : Formula) :
    (f.substitute substitution).applySolution solution =
      (f.applySolution solution).substitute substitution := by
  induction f using Formula.induction with
  | bool | int => rfl
  | var sort name =>
      rw [applySolution, substitute]
      cases found : Entries.find? name substitution with
      | none => rfl
      | some replacement =>
          exact (known _ (Entries.mem_of_find? found)).applySolution solution
  | unknown pending name =>
      rw [substitute_unknown, applySolution, applySolution]
      cases found : solution.find? name with
      | none => rfl
      | some valuation =>
          have inOrder : valuation.conjunction.Ordered :=
            ordered_conjunction (ordered _ (SortedMap.mem_entries_of_find? found))
          exact (substitute_substitute inOrder pending substitution).symm
  | unary op f induction => exact congrArg (Formula.unary op) induction
  | binary op f g left right => exact congrArg₂ (Formula.binary op) left right
  | ite f g h condition thenTerm elseTerm =>
      simp only [substitute, applySolution, condition, thenTerm, elseTerm]
  | measure sort name f induction => exact congrArg (Formula.measure sort name) induction

end Formula

namespace RefinedType

variable {solution : Solution} {substitution : Substitution}

theorem substitute_applySolution (ordered : solution.Ordered) (known : substitution.Known)
    (t : RefinedType) :
    (t.substitute substitution).applySolution solution =
      (t.applySolution solution).substitute substitution := by
  induction t using Skeleton.induction generalizing substitution with
  | scalar base arguments refinement induction =>
      rw [substitute, substituteAll_eq_map, applySolution_scalar, applySolution_scalar,
        substitute, substituteAll_eq_map, List.map_map, List.map_map,
        refinement.substitute_applySolution ordered known]
      have same : arguments.map (applySolution solution ∘ substitute substitution) =
          arguments.map (substitute substitution ∘ applySolution solution) :=
        List.map_congr_left fun t member => induction t member known
      rw [same]
  | function name argument result first second =>
      rw [substitute, applySolution_function, applySolution_function, substitute,
        first known, second (known.erase name)]

end RefinedType

/-- A substitution without unknowns may be applied before or after the unknowns are
solved, in formulas and in types. -/
theorem substitution_awaits_solution {substitution : Substitution}
    (known : substitution.Known) {solution : Solution} (ordered : solution.Ordered) :
    (∀ f : Formula, (f.substitute substitution).applySolution solution =
      (f.applySolution solution).substitute substitution) ∧
    ∀ t : RefinedType, (t.substitute substitution).applySolution solution =
      (t.applySolution solution).substitute substitution :=
  ⟨Formula.substitute_applySolution ordered known,
    RefinedType.substitute_applySolution ordered known⟩

def boundedByArgument : RefinedType :=
  .function "x" (.scalar .int [] (.unknown [("z", .var .int "x")] "p"))
    (.scalar .int [] (.unknown [("z", .var .int "x")] "p"))

/-- Both unknowns get the same predicate, but the argument shadows the replacement in the
result. -/
theorem boundedByArgument_solved :
    let substitution : Substitution := [("x", .int 5), ("z", .int 7)]
    let solution : Solution :=
      .ofList [("p", .ofList [.lessThan (.value .int) (.var .int "z")])]
    let solved : RefinedType :=
      .function "x" (.scalar .int [] (.lessThan (.value .int) (.int 5)))
        (.scalar .int [] (.lessThan (.value .int) (.var .int "x")))
    substitution.Known ∧ solution.Ordered ∧
      (boundedByArgument.substitute substitution).applySolution solution = solved ∧
      (boundedByArgument.applySolution solution).substitute substitution = solved := by
  intro substitution solution solved
  have known : substitution.Known := by decide
  have ordered : solution.Ordered := by decide
  have late : (boundedByArgument.applySolution solution).substitute substitution = solved := by
    decide
  refine ⟨known, ordered, ?_, late⟩
  rw [(substitution_awaits_solution known ordered).2, late]

end Inhabit
