import Inhabit.Proofs.Validity.Traps

/-! Enumeration decides bounded validity.

A formula that never negates the least value is found valid or not, and what is found does
not depend on the atoms that are enumerated, as long as none of the formula is missing. So
formulas with different atoms can be checked together or one by one. -/

namespace Inhabit.Formula

variable {bound : Int64} {f g : Formula} {formulas : List Formula}

/-! ## Verdicts -/

theorem verdicts_eq {first second : Except Trap Bool} (ends : ∃ verdict, first = .ok verdict)
    (alsoEnds : ∃ verdict, second = .ok verdict)
    (same : first = .ok true ↔ second = .ok true) : first = second := by
  rcases ends with ⟨verdict, rfl⟩
  rcases alsoEnds with ⟨other, rfl⟩
  cases verdict <;> cases other <;> simp_all

theorem NeverNegatesLeast.isValidOver_eq_isValid (nonnegative : 0 ≤ bound.toInt)
    (proper : f.NeverNegatesLeast bound) {atoms : List Formula}
    (covers : ∀ atom ∈ f.atomOccurrences, atom ∈ atoms) :
    f.isValidOver bound atoms = f.isValid bound :=
  verdicts_eq (proper.exists_isValidOver nonnegative atoms) (proper.exists_isValid nonnegative)
    ((isValidOver_iff_assigns nonnegative covers).trans (isValid_iff_assigns nonnegative).symm)

/-! ## Conjunctions -/

theorem neverNegatesLeast_iff :
    f.NeverNegatesLeast bound ↔ ∀ values, Assigns bound values → f.HasValue values := by
  simp only [NeverNegatesLeast, hasValue_iff_not_negatesLeast]

theorem NeverNegatesLeast.binary (left : f.NeverNegatesLeast bound)
    (right : g.NeverNegatesLeast bound) (op : BinaryOp) :
    (Formula.binary op f g).NeverNegatesLeast bound := by
  rw [neverNegatesLeast_iff] at left right ⊢
  exact fun values assigns => hasValue_binary.mpr ⟨left values assigns, right values assigns⟩

theorem neverNegatesLeast_conjunction (proper : ∀ f ∈ formulas, f.NeverNegatesLeast bound) :
    (conjunction formulas).NeverNegatesLeast bound := by
  rw [neverNegatesLeast_iff]
  intro values assigns
  exact hasValue_conjunction fun f member =>
    hasValue_of_not_negatesLeast (proper f member values assigns)

theorem isValid_conjunction_iff (nonnegative : 0 ≤ bound.toInt) :
    (conjunction formulas).isValid bound = .ok true ↔
      ∀ f ∈ formulas, f.isValid bound = .ok true := by
  simp only [isValid_iff_assigns nonnegative, holds_conjunction]
  exact ⟨fun valid f member values assigns => valid values assigns f member,
    fun valid values assigns f member => valid f member values assigns⟩

theorem allM_isValid_iff :
    formulas.allM (isValid bound) = .ok true ↔ ∀ f ∈ formulas, f.isValid bound = .ok true := by
  induction formulas with
  | nil => exact iff_of_true rfl (List.forall_mem_nil _)
  | cons f rest induction =>
      rw [List.forall_mem_cons, ← induction, List.allM]
      cases f.isValid bound with
      | error trap => exact iff_of_false nofun fun both => nomatch both.1
      | ok verdict =>
          cases verdict with
          | false => exact iff_of_false nofun fun both => nomatch both.1
          | true => exact (and_iff_right rfl).symm

theorem exists_allM_isValid (nonnegative : 0 ≤ bound.toInt)
    (proper : ∀ f ∈ formulas, f.NeverNegatesLeast bound) :
    ∃ verdict, formulas.allM (isValid bound) = .ok verdict := by
  induction formulas with
  | nil => exact ⟨true, rfl⟩
  | cons f rest induction =>
      rw [List.forall_mem_cons] at proper
      rcases proper.1.exists_isValid nonnegative with ⟨verdict, here⟩
      rw [List.allM, here]
      cases verdict with
      | false => exact ⟨false, rfl⟩
      | true => exact induction proper.2

theorem isValid_binary_and (nonnegative : 0 ≤ bound.toInt)
    (left : f.NeverNegatesLeast bound) (right : g.NeverNegatesLeast bound) :
    (binary .and f g).isValid bound = do
      return (← f.isValid bound) && (← g.isValid bound) := by
  rcases left.exists_isValid nonnegative with ⟨first, leftVerdict⟩
  rcases right.exists_isValid nonnegative with ⟨second, rightVerdict⟩
  have both : (binary .and f g).isValid bound = .ok true ↔
      f.isValid bound = .ok true ∧ g.isValid bound = .ok true := by
    simp only [isValid_iff_assigns nonnegative, holds_binary_and]
    exact ⟨fun valid => ⟨fun values assigns => (valid values assigns).1,
        fun values assigns => (valid values assigns).2⟩,
      fun valid values assigns => ⟨valid.1 values assigns, valid.2 values assigns⟩⟩
  apply verdicts_eq ((left.binary right .and).exists_isValid nonnegative)
  · rw [leftVerdict, rightVerdict]
    exact ⟨first && second, rfl⟩
  · rw [both, leftVerdict, rightVerdict]
    cases first <;> cases second <;> simp [pure, Except.pure, bind, Except.bind]

/-- A check ends with whether the formula holds under all assignments of the bounded domain.
It is the same for any list of atoms in which none of the formula is missing, in any order and
with any repetitions. A conjunction is valid exactly if its members are. -/
theorem isValid_decides_truth_throughout (nonnegative : 0 ≤ bound.toInt) :
    (∀ f : Formula, f.NeverNegatesLeast bound →
      (∃ verdict, f.isValid bound = .ok verdict ∧
        (verdict = true ↔ ∀ values, Assigns bound values → f.Holds values)) ∧
      ∀ atoms, (∀ atom ∈ f.atomOccurrences, atom ∈ atoms) →
        f.isValidOver bound atoms = f.isValid bound) ∧
      (∀ formulas : List Formula, (∀ f ∈ formulas, f.NeverNegatesLeast bound) →
        (conjunction formulas).isValid bound = formulas.allM (isValid bound)) ∧
      ∀ f g : Formula, f.NeverNegatesLeast bound → g.NeverNegatesLeast bound →
        (binary .and f g).isValid bound = do
          return (← f.isValid bound) && (← g.isValid bound) := by
  refine ⟨fun f proper => ⟨?_, fun atoms => proper.isValidOver_eq_isValid nonnegative⟩,
    fun formulas proper => ?_, fun f g => isValid_binary_and nonnegative⟩
  · rcases proper.exists_isValid nonnegative with ⟨verdict, ended⟩
    refine ⟨verdict, ended, ?_⟩
    rw [← isValid_iff_assigns nonnegative, ended, Except.ok.injEq]
  · exact verdicts_eq ((neverNegatesLeast_conjunction proper).exists_isValid nonnegative)
      (exists_allM_isValid nonnegative proper)
      ((isValid_conjunction_iff nonnegative).trans allM_isValid_iff.symm)

def boundedLength : List Formula := [
  (measure .int "len" (.var (.data "List") "xs")).atLeast (.int (-2)),
  binary .or (.var .bool "b") (.not (.var .bool "b"))]

theorem boundedLength_decided :
    0 ≤ (2 : Int64).toInt ∧ (∀ f ∈ boundedLength, f.NeverNegatesLeast 2) ∧
      (conjunction boundedLength).isValid 2 = boundedLength.allM (isValid 2) ∧
      ∀ f ∈ boundedLength, ∃ verdict, f.isValid 2 = .ok verdict ∧
        (verdict = true ↔ ∀ values, Assigns 2 values → f.Holds values) := by
  have nonnegative : 0 ≤ (2 : Int64).toInt := by decide
  have proper : ∀ f ∈ boundedLength, f.NeverNegatesLeast 2 := by
    simp only [neverNegatesLeast_iff]
    refine List.forall_mem_cons.mpr ⟨fun values _ => ⟨_, rfl⟩, ?_⟩
    exact List.forall_mem_singleton.mpr fun values _ => ⟨_, rfl⟩
  rcases isValid_decides_truth_throughout nonnegative with ⟨decides, conjunctions, _⟩
  exact ⟨nonnegative, proper, conjunctions boundedLength proper,
    fun f member => (decides f (proper f member)).1⟩

example : (conjunction boundedLength).isValid 2 = .ok true := rfl

end Inhabit.Formula
