import Inhabit.Proofs.Naming.Occurrences
import Inhabit.Proofs.Validity.Decisions

/-! Renaming the variables of a formula keeps it valid.

A measure term is an atom for the enumeration, but a renaming reaches the variables in it.
Different atoms may become one, so that there are fewer assignments to check: each of them
tells values for the atoms that there were before. -/

namespace Inhabit

/-- The variables of the formula that are replaced are replaced by variables of their sorts. -/
def Substitution.RenamesIn (substitution : Substitution) (f : Formula) : Prop :=
  ∀ use ∈ f.variableUses, ∀ replacement, Entries.find? use.2 substitution = some replacement →
    ∃ new, replacement = .var use.1 new

namespace Formula

variable {substitution : Substitution} {f : Formula}

theorem exists_substitute_var {sort : LogicSort} {name : String}
    (renames : substitution.RenamesIn (.var sort name)) :
    ∃ new, (var sort name).substitute substitution = .var sort new := by
  rw [substitute]
  cases found : Entries.find? name substitution with
  | none => exact ⟨name, rfl⟩
  | some replacement => exact renames _ List.mem_cons_self replacement found

/-! ## Atoms -/

theorem atomOccurrences_substitute (renames : substitution.RenamesIn f) :
    (f.substitute substitution).atomOccurrences =
      f.atomOccurrences.map (substitute substitution) := by
  unfold Substitution.RenamesIn at renames
  induction f using Formula.induction with
  | bool | int | unknown | measure => rfl
  | var sort name =>
      rcases exists_substitute_var renames with ⟨new, renamed⟩
      rw [atomOccurrences, List.map_singleton, renamed, atomOccurrences]
  | unary op f induction => exact induction renames
  | binary op f g first second =>
      rcases List.forall_mem_append.mp renames with ⟨left, right⟩
      rw [substitute, atomOccurrences, first left, second right, ← List.map_append,
        atomOccurrences]
  | ite f g h first second third =>
      rcases List.forall_mem_append.mp renames with ⟨condition, branches⟩
      rcases List.forall_mem_append.mp branches with ⟨left, right⟩
      rw [substitute, atomOccurrences, first condition, second left, third right,
        ← List.map_append, ← List.map_append, atomOccurrences]

theorem sort_substitute_of_mem (renames : substitution.RenamesIn f) :
    ∀ atom ∈ f.atomOccurrences, (atom.substitute substitution).sort = atom.sort := by
  unfold Substitution.RenamesIn at renames
  induction f using Formula.induction with
  | bool | int | unknown => exact List.forall_mem_nil _
  | measure => exact List.forall_mem_singleton.mpr rfl
  | var sort name =>
      rcases exists_substitute_var renames with ⟨new, renamed⟩
      intro atom member
      rw [List.mem_singleton.mp member, renamed]
      rfl
  | unary op f induction => exact induction renames
  | binary op f g first second =>
      rcases List.forall_mem_append.mp renames with ⟨left, right⟩
      exact List.forall_mem_append.mpr ⟨first left, second right⟩
  | ite f g h first second third =>
      rcases List.forall_mem_append.mp renames with ⟨condition, branches⟩
      rcases List.forall_mem_append.mp branches with ⟨left, right⟩
      exact List.forall_mem_append.mpr
        ⟨first condition, List.forall_mem_append.mpr ⟨second left, third right⟩⟩

/-! ## Assignments -/

theorem evaluate_substitute (renames : substitution.RenamesIn f) (values : Formula → Int) :
    (f.substitute substitution).evaluate values =
      f.evaluate fun atom => values (atom.substitute substitution) := by
  unfold Substitution.RenamesIn at renames
  induction f using Formula.induction with
  | bool | int | unknown | measure => rfl
  | var sort name =>
      rcases exists_substitute_var renames with ⟨new, renamed⟩
      rw [evaluate, renamed, evaluate]
  | unary op f induction =>
      cases op <;> simp only [substitute, evaluate, induction renames]
  | binary op f g first second =>
      rcases List.forall_mem_append.mp renames with ⟨left, right⟩
      simp only [substitute, evaluate, first left, second right]
  | ite f g h first second third =>
      rcases List.forall_mem_append.mp renames with ⟨condition, branches⟩
      rcases List.forall_mem_append.mp branches with ⟨left, right⟩
      simp only [substitute, evaluate, first condition, second left, third right]

theorem exists_values_of_renamed {bound : Int64} (nonnegative : 0 ≤ bound.toInt)
    (renames : substitution.RenamesIn f) {values : Formula → Int} (assigns : Assigns bound values) :
    ∃ others : Formula → Int, Assigns bound others ∧
      f.evaluate others = (f.substitute substitution).evaluate values := by
  let others (atom : Formula) : Int :=
    if atom ∈ f.atomOccurrences then values (atom.substitute substitution) else 0
  refine ⟨others, .of_admits fun atom => ?_, ?_⟩
  · by_cases member : atom ∈ f.atomOccurrences
    · have renamed :
          atom.substitute substitution ∈ (f.substitute substitution).atomOccurrences := by
        rw [atomOccurrences_substitute renames]
        exact List.mem_map_of_mem member
      have inRange := assigns.admits _ renamed
      unfold Admits at inRange ⊢
      rw [sort_substitute_of_mem renames atom member] at inRange
      rwa [show others atom = values (atom.substitute substitution) from if_pos member]
    · rw [show others atom = 0 from if_neg member]
      exact admits_zero nonnegative atom
  · rw [evaluate_substitute renames]
    exact evaluate_congr fun atom member => if_pos member

/-- The atoms of a renamed formula are the renamed atoms of the formula, and its value under
an assignment is that of the formula where each atom has the value of the renamed one. So no
assignment of the bounded domain makes the renamed formula negate the least value unless one
does so to the formula, and a valid formula stays valid. -/
theorem renaming_preserves_validity {bound : Int64} (nonnegative : 0 ≤ bound.toInt)
    (renames : substitution.RenamesIn f) :
    (f.substitute substitution).atomOccurrences =
        f.atomOccurrences.map (substitute substitution) ∧
      (∀ values, (f.substitute substitution).evaluate values =
        f.evaluate fun atom => values (atom.substitute substitution)) ∧
      (f.NeverNegatesLeast bound → (f.substitute substitution).NeverNegatesLeast bound) ∧
      (f.isValid bound = .ok true → (f.substitute substitution).isValid bound = .ok true) := by
  refine ⟨atomOccurrences_substitute renames, evaluate_substitute renames, ?_, ?_⟩
  · simp only [neverNegatesLeast_iff]
    intro proper values assigns
    rcases exists_values_of_renamed nonnegative renames assigns with ⟨others, inRange, same⟩
    rcases proper others inRange with ⟨value, result⟩
    exact ⟨value, same ▸ result⟩
  · simp only [isValid_iff_assigns nonnegative]
    intro valid values assigns
    rcases exists_values_of_renamed nonnegative renames assigns with ⟨others, inRange, same⟩
    rcases valid others inRange with ⟨value, result, nonzero⟩
    exact ⟨value, same ▸ result, nonzero⟩

def lengthsBelow : Formula :=
  let length (name : String) : Formula := .measure .int "len" (.var (.data "List") name)
  (binary .and ((var .int "x").lessThan (.var .int "y"))
    (binary .le (length "xs") (.var .int "x"))).implies
    (binary .or ((length "xs").lessThan (.var .int "y"))
      ((length "ys").lessThan (.var .int "y")))

def mergingNames : Substitution :=
  [("x", .var .int "n"), ("xs", .var (.data "List") "ns"), ("y", .var .int "n"),
    ("ys", .var (.data "List") "ns")]

theorem lengthsBelow_renamed :
    0 ≤ (1 : Int64).toInt ∧ mergingNames.RenamesIn lengthsBelow ∧
      lengthsBelow.atoms.length = 4 ∧ lengthsBelow.isValid 1 = .ok true ∧
      (lengthsBelow.substitute mergingNames).atoms.length = 2 ∧
      (lengthsBelow.substitute mergingNames).isValid 1 = .ok true := by
  have nonnegative : 0 ≤ (1 : Int64).toInt := by decide
  have renames : mergingNames.RenamesIn lengthsBelow := by
    have images : ∀ use ∈ lengthsBelow.variableUses, Entries.find? use.2 mergingNames =
        some (.var use.1 (if use.1 = .int then "n" else "ns")) := by
      decide
    intro use member replacement found
    exact ⟨_, Option.some.inj (found.symm.trans (images use member))⟩
  have valid : lengthsBelow.isValid 1 = .ok true := by rfl
  exact ⟨nonnegative, renames, by decide, valid, by decide,
    (renaming_preserves_validity nonnegative renames).2.2.2 valid⟩

end Formula

end Inhabit
