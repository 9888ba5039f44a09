import Inhabit.Proofs.Substitution.Relabeling
import Inhabit.Proofs.Validity.Bounded

/-! Other names for the unknowns of a formula.

The value of a formula does not depend on them, apart from measure terms, whose arguments
tell them apart. So formulas with other names for their unknowns are valid together if
different unknowns keep different names. -/

namespace Inhabit

namespace Formula

mutual

/-- Rename the unknowns of a formula, also those that pending renamings mention. -/
def renameUnknowns (rename : String → String) : Formula → Formula
  | .bool b => .bool b
  | .int n => .int n
  | .var sort name => .var sort name
  | .unknown pending name => .unknown (renameUnknownsEntries rename pending) (rename name)
  | .unary op f => .unary op (renameUnknowns rename f)
  | .binary op f g => .binary op (renameUnknowns rename f) (renameUnknowns rename g)
  | .ite f g h =>
      .ite (renameUnknowns rename f) (renameUnknowns rename g) (renameUnknowns rename h)
  | .measure sort name f => .measure sort name (renameUnknowns rename f)
termination_by structural f => f

def renameUnknownsEntries (rename : String → String) :
    List (String × Formula) → List (String × Formula)
  | [] => []
  | (name, f) :: rest => (name, renameUnknowns rename f) :: renameUnknownsEntries rename rest
termination_by structural entries => entries

end

section Renaming

variable {rename : String → String}

mutual

theorem renameUnknowns_injective (injective : Function.Injective rename) {f g : Formula}
    (equal : f.renameUnknowns rename = g.renameUnknowns rename) : f = g := by
  match f with
  | .bool _ | .int _ | .var _ _ => cases g <;> simp_all [renameUnknowns]
  | .unknown pending name =>
      cases g <;> simp only [renameUnknowns, Formula.unknown.injEq, reduceCtorEq] at equal
      rw [renameUnknownsEntries_injective injective equal.1, injective equal.2]
  | .unary op f =>
      cases g <;> simp only [renameUnknowns, Formula.unary.injEq, reduceCtorEq] at equal
      rw [equal.1, renameUnknowns_injective injective equal.2]
  | .binary op f₁ f₂ =>
      cases g <;> simp only [renameUnknowns, Formula.binary.injEq, reduceCtorEq] at equal
      rw [equal.1, renameUnknowns_injective injective equal.2.1,
        renameUnknowns_injective injective equal.2.2]
  | .ite f₁ f₂ f₃ =>
      cases g <;> simp only [renameUnknowns, Formula.ite.injEq, reduceCtorEq] at equal
      rw [renameUnknowns_injective injective equal.1,
        renameUnknowns_injective injective equal.2.1,
        renameUnknowns_injective injective equal.2.2]
  | .measure sort name f =>
      cases g <;> simp only [renameUnknowns, Formula.measure.injEq, reduceCtorEq] at equal
      rw [equal.1, equal.2.1, renameUnknowns_injective injective equal.2.2]
termination_by structural f

theorem renameUnknownsEntries_injective (injective : Function.Injective rename)
    {entries others : List (String × Formula)}
    (equal : renameUnknownsEntries rename entries = renameUnknownsEntries rename others) :
    entries = others := by
  match entries with
  | [] => cases others <;> simp_all [renameUnknownsEntries]
  | (name, f) :: rest =>
      cases others <;>
        simp only [renameUnknownsEntries, List.cons.injEq, Prod.mk.injEq, reduceCtorEq] at equal
      rename_i other others
      rw [equal.1.1, renameUnknowns_injective injective equal.1.2,
        renameUnknownsEntries_injective injective equal.2]
termination_by structural entries

end

theorem renameUnknownsEntries_eq (entries : List (String × Formula)) :
    renameUnknownsEntries rename entries =
      Entries.mapValues (renameUnknowns rename) entries := by
  induction entries with
  | nil => rfl
  | cons entry rest induction => exact congrArg _ induction

/-! ## Substitution -/

theorem relabels_renameUnknowns (rename : String → String) :
    Relabels (renameUnknowns rename) where
  bool _ := rfl
  int _ := rfl
  var sort _ := ⟨sort, rfl⟩
  unknown name := ⟨rename name, fun pending =>
    congrArg (Formula.unknown · (rename name)) (renameUnknownsEntries_eq pending)⟩
  unary _ _ := rfl
  binary _ _ _ := rfl
  ite _ _ _ := rfl
  measure sort _ := ⟨sort, fun _ => rfl⟩

theorem renameUnknowns_substitute (substitution : Substitution) (f : Formula) :
    (f.substitute substitution).renameUnknowns rename =
      (f.renameUnknowns rename).substitute (renameUnknownsEntries rename substitution) := by
  rw [renameUnknownsEntries_eq]
  exact (relabels_renameUnknowns rename).substitute f substitution

/-! ## Connectives -/

@[simp] theorem isTrue_renameUnknowns (f : Formula) :
    (f.renameUnknowns rename).isTrue = f.isTrue := by
  cases f <;> rfl

@[simp] theorem isFalse_renameUnknowns (f : Formula) :
    (f.renameUnknowns rename).isFalse = f.isFalse := by
  cases f <;> rfl

@[simp] theorem sort_renameUnknowns (f : Formula) :
    (f.renameUnknowns rename).sort = f.sort := by
  induction f using Formula.induction with
  | unary op f => cases op <;> rfl
  | ite f g h _ second => exact second
  | _ => rfl

theorem renameUnknowns_and (f g : Formula) :
    (f.and g).renameUnknowns rename =
      (f.renameUnknowns rename).and (g.renameUnknowns rename) := by
  simp only [Formula.and, isTrue_renameUnknowns, isFalse_renameUnknowns]
  split
  · rfl
  · split <;> rfl

theorem renameUnknowns_implies (f g : Formula) :
    (f.implies g).renameUnknowns rename =
      (f.renameUnknowns rename).implies (g.renameUnknowns rename) := by
  simp only [Formula.implies, isTrue_renameUnknowns, isFalse_renameUnknowns]
  split
  · rfl
  · split <;> rfl

theorem renameUnknowns_conjunction (formulas : List Formula) :
    (conjunction formulas).renameUnknowns rename =
      conjunction (formulas.map (renameUnknowns rename)) := by
  suffices folds : ∀ start : Formula,
      (formulas.foldl and start).renameUnknowns rename =
        (formulas.map (renameUnknowns rename)).foldl and (start.renameUnknowns rename) from
    folds top
  induction formulas with
  | nil => exact fun _ => rfl
  | cons f rest induction =>
      intro start
      rw [List.foldl_cons, List.map_cons, List.foldl_cons, induction, renameUnknowns_and]

theorem unknownOccurrences_renameUnknowns (f : Formula) :
    (f.renameUnknowns rename).unknownOccurrences = f.unknownOccurrences.map rename := by
  induction f using Formula.induction with
  | bool | int | var | unknown => rfl
  | unary op f induction | measure sort name f induction => exact induction
  | binary op f g first second =>
      simp only [renameUnknowns, unknownOccurrences, List.map_append, first, second]
  | ite f g h first second third =>
      simp only [renameUnknowns, unknownOccurrences, List.map_append, first, second, third]

theorem Known.renameUnknowns {f : Formula} (known : f.Known) :
    (f.renameUnknowns rename).Known := by
  unfold Known at known ⊢
  rw [unknownOccurrences_renameUnknowns, known]
  rfl

theorem Known.renameUnknowns_eq {f : Formula} (known : f.Known) :
    f.renameUnknowns rename = f := by
  unfold Known at known
  induction f using Formula.induction with
  | bool | int | var => rfl
  | unknown => cases known
  | unary op f induction | measure sort name f induction =>
      rw [Formula.renameUnknowns, induction known]
  | binary op f g first second =>
      rcases List.append_eq_nil_iff.mp known with ⟨left, right⟩
      rw [Formula.renameUnknowns, first left, second right]
  | ite f g h first second third =>
      rcases List.append_eq_nil_iff.mp known with ⟨condition, branches⟩
      rcases List.append_eq_nil_iff.mp branches with ⟨left, right⟩
      rw [Formula.renameUnknowns, first condition, second left, third right]

/-! ## Validity -/

theorem atomOccurrences_renameUnknowns (f : Formula) :
    (f.renameUnknowns rename).atomOccurrences =
      f.atomOccurrences.map (Formula.renameUnknowns rename) := by
  induction f using Formula.induction with
  | bool | int | var | unknown | measure => rfl
  | unary op f induction => exact induction
  | binary op f g first second =>
      simp only [renameUnknowns, atomOccurrences, List.map_append, first, second]
  | ite f g h first second third =>
      simp only [renameUnknowns, atomOccurrences, List.map_append, first, second, third]

theorem evaluate_renameUnknowns (values : Formula → Int) (f : Formula) :
    (f.renameUnknowns rename).evaluate values =
      f.evaluate fun atom => values (atom.renameUnknowns rename) := by
  induction f using evaluate.induct with
  | case1 | case2 | case3 | case4 | case5 => rfl
  | case6 f induction => simp only [renameUnknowns, evaluate, induction]
  | case7 f induction => simp only [renameUnknowns, evaluate, induction]
  | case8 op f g first second => simp only [renameUnknowns, evaluate, first, second]
  | case9 f g h first second third =>
      simp only [renameUnknowns, evaluate, first, second, third]

theorem eraseDups_map {α β : Type} [DecidableEq α] [DecidableEq β] {image : α → β}
    (injective : Function.Injective image) (elements : List α) :
    (elements.map image).eraseDups = elements.eraseDups.map image := by
  match elements with
  | [] => rfl
  | first :: rest =>
      have others : (rest.map image).filter (fun other => !other == image first) =
          (rest.filter fun other => !other == first).map image := by
        rw [List.filter_map]
        congr 2
        funext other
        rw [Function.comp_apply, Bool.eq_iff_iff]
        simp [injective.eq_iff]
      rw [List.map_cons, List.eraseDups_cons, List.eraseDups_cons, List.map_cons, others,
        eraseDups_map injective]
termination_by elements.length
decreasing_by exact Nat.lt_succ_of_le (List.length_filter_le _ _)

theorem lookup_map {α β γ : Type} [DecidableEq α] [DecidableEq β] {image : α → β}
    (injective : Function.Injective image) (key : α) (entries : List (α × γ)) :
    (entries.map fun entry => (image entry.1, entry.2)).lookup (image key) =
      entries.lookup key := by
  induction entries with
  | nil => rfl
  | cons entry rest induction =>
      rw [List.map_cons, List.lookup_cons, List.lookup_cons, induction]
      by_cases same : key = entry.1
      · rw [same, beq_self_eq_true, beq_self_eq_true]
      · rw [beq_false_of_ne same, beq_false_of_ne (injective.ne same)]

theorem holdsThroughout_renameUnknowns (injective : Function.Injective rename) (f : Formula)
    (ranges : List (Formula × Int × Int)) (chosen : List (Formula × Int)) :
    (f.renameUnknowns rename).holdsThroughout
        (ranges.map fun entry => (entry.1.renameUnknowns rename, entry.2))
        (chosen.map fun entry => (entry.1.renameUnknowns rename, entry.2)) =
      f.holdsThroughout ranges chosen := by
  have different : Function.Injective (renameUnknowns rename) := fun _ _ =>
    renameUnknowns_injective injective
  induction ranges generalizing chosen with
  | nil =>
      simp only [List.map_nil, holdsThroughout, evaluate_renameUnknowns, lookup_map different]
  | cons entry rest induction =>
      rcases entry with ⟨atom, least, greatest⟩
      have each (value : Int) := induction ((atom, value) :: chosen)
      simp only [List.map_cons] at each
      simp only [List.map_cons, holdsThroughout, each]

theorem isValid_renameUnknowns (injective : Function.Injective rename) {bound : Int64}
    (nonnegative : 0 ≤ bound.toInt) (f : Formula) :
    (f.renameUnknowns rename).isValid bound = f.isValid bound := by
  have different : Function.Injective (renameUnknowns rename) := fun _ _ =>
    renameUnknowns_injective injective
  have atoms : (f.renameUnknowns rename).atoms = f.atoms.map (renameUnknowns rename) := by
    rw [Formula.atoms, atomOccurrences_renameUnknowns, eraseDups_map different, Formula.atoms]
  rw [isValid_eq nonnegative, isValid_eq nonnegative, atoms,
    ← holdsThroughout_renameUnknowns injective f, List.map_map, List.map_map]
  simp only [Function.comp_def, limits, sort_renameUnknowns, List.map_nil]

end Renaming

end Formula

end Inhabit
