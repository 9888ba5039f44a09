import Inhabit.Proofs.Assignments.Following
import Inhabit.Proofs.Matching.Instances

/-! Applying an assignment early.

Whatever is assigned later is found from what the shorter assignment has left, so the
longer one comes to the same type. Only the refinements met along a chain of variables
are conjoined in another order of brackets. -/

namespace Inhabit

/-! ## Conjunctions up to association -/

namespace Formula

/-- The parts of a conjunction from left to right. Formulas with the same conjuncts differ
in how conjunctions are associated and in nothing else. -/
def conjuncts : Formula → List Formula
  | .binary .and left right => left.conjuncts ++ right.conjuncts
  | f => [f]

theorem conjuncts_ne_nil (f : Formula) : f.conjuncts ≠ [] := by
  induction f using conjuncts.induct with
  | case1 left right first _ => exact List.append_ne_nil_of_left_ne_nil first _
  | case2 f different => simp [conjuncts]

theorem conjuncts_eq_bool_iff {f : Formula} {value : Bool} :
    f.conjuncts = [.bool value] ↔ f = .bool value := by
  constructor
  · intro same
    induction f using conjuncts.induct with
    | case1 left right _ _ =>
        have lengths := congrArg List.length same
        have := List.length_pos_of_ne_nil left.conjuncts_ne_nil
        have := List.length_pos_of_ne_nil right.conjuncts_ne_nil
        simp [conjuncts] at lengths
        omega
    | case2 f different => simpa [conjuncts] using same
  · rintro rfl
    rfl

theorem isTrue_iff_conjuncts {f : Formula} : f.isTrue = true ↔ f.conjuncts = [.top] := by
  rw [conjuncts_eq_bool_iff]
  cases f <;> simp [isTrue]

theorem isFalse_iff_conjuncts {f : Formula} : f.isFalse = true ↔ f.conjuncts = [.bottom] := by
  rw [conjuncts_eq_bool_iff]
  cases f <;> simp [isFalse]

theorem conjuncts_and_congr {f g f' g' : Formula} (first : f.conjuncts = f'.conjuncts)
    (second : g.conjuncts = g'.conjuncts) : (f.and g).conjuncts = (f'.and g').conjuncts := by
  have isTrue {f g : Formula} (same : f.conjuncts = g.conjuncts) : f.isTrue = g.isTrue := by
    rw [Bool.eq_iff_iff, isTrue_iff_conjuncts, isTrue_iff_conjuncts, same]
  have isFalse {f g : Formula} (same : f.conjuncts = g.conjuncts) : f.isFalse = g.isFalse := by
    rw [Bool.eq_iff_iff, isFalse_iff_conjuncts, isFalse_iff_conjuncts, same]
  unfold Formula.and
  rw [isTrue first, isTrue second, isFalse first, isFalse second]
  split
  · exact second
  · split
    · exact first
    · rw [conjuncts, conjuncts, first, second]

theorem literal_or (f : Formula) :
    f = top ∨ f = bottom ∨ f.isTrue = false ∧ f.isFalse = false := by
  cases f with
  | bool value => cases value <;> simp
  | _ => exact .inr (.inr ⟨rfl, rfl⟩)

theorem and_eq_binary {f g : Formula} (first : f.isTrue = false ∧ f.isFalse = false)
    (second : g.isTrue = false ∧ g.isFalse = false) : f.and g = .binary .and f g := by
  simp [Formula.and, first, second]

theorem conjuncts_and_assoc (f g h : Formula) :
    ((f.and g).and h).conjuncts = (f.and (g.and h)).conjuncts := by
  rcases f.literal_or with rfl | rfl | first
  · rfl
  · rw [bottom_and, bottom_and, bottom_and]
  rcases g.literal_or with rfl | rfl | second
  · rw [and_top, top_and]
  · rw [and_bottom, bottom_and, and_bottom]
  rcases h.literal_or with rfl | rfl | third
  · rw [and_top, and_top]
  · rw [and_bottom, and_bottom, and_bottom]
  rw [and_eq_binary first second, and_eq_binary second third,
    and_eq_binary ⟨rfl, rfl⟩ third, and_eq_binary first ⟨rfl, rfl⟩]
  simp only [conjuncts, List.append_assoc]

/-! ## Sorts -/

theorem instantiateSorts_instantiateSorts {first later : SortAssignment}
    (acyclic : later.Acyclic)
    (longer : ∀ name sort, first.find? name = some sort → later.find? name = some sort)
    (f : Formula) :
    (f.instantiateSorts first).instantiateSorts later = f.instantiateSorts later := by
  simp only [instantiateSorts_eq_mapSorts, mapSorts_mapSorts,
    LogicSort.instantiate_instantiate acyclic longer]

end Formula

namespace RefinedType

/-- The types have one skeleton, and their refinements differ in how conjunctions are
associated and in nothing else. -/
def SameConjuncts (t u : RefinedType) : Prop :=
  t.mapRefinements Formula.conjuncts = u.mapRefinements Formula.conjuncts

instance (t u : RefinedType) : Decidable (t.SameConjuncts u) :=
  inferInstanceAs (Decidable (_ = _))

theorem sameConjuncts_scalar_iff {base other : BaseType} {left right : List RefinedType}
    {f g : Formula} :
    SameConjuncts (.scalar base left f) (.scalar other right g) ↔
      base = other ∧
        left.map (Skeleton.mapRefinements Formula.conjuncts) =
          right.map (Skeleton.mapRefinements Formula.conjuncts) ∧
        f.conjuncts = g.conjuncts := by
  unfold SameConjuncts
  rw [Skeleton.mapRefinements, Skeleton.mapRefinements, mapRefinementsAll_eq_map,
    mapRefinementsAll_eq_map, Skeleton.scalar.injEq]

theorem SameConjuncts.addRefinement {t u : RefinedType} (same : t.SameConjuncts u)
    (formula : Formula) : (t.addRefinement formula).SameConjuncts (u.addRefinement formula) := by
  cases t with
  | function name argument result =>
      cases u with
      | function other otherArgument otherResult => exact same
      | scalar base arguments refinement => cases same
  | scalar base arguments refinement =>
      cases u with
      | function name argument result => cases same
      | scalar other others otherRefinement =>
          rw [sameConjuncts_scalar_iff] at same
          rw [RefinedType.addRefinement, RefinedType.addRefinement, sameConjuncts_scalar_iff]
          exact ⟨same.1, same.2.1, Formula.conjuncts_and_congr same.2.2 rfl⟩

theorem sameConjuncts_addRefinement_and (t : RefinedType) (f g : Formula) :
    (t.addRefinement (f.and g)).SameConjuncts ((t.addRefinement f).addRefinement g) := by
  cases t with
  | function name argument result => rfl
  | scalar base arguments refinement =>
      simp only [addRefinement, sameConjuncts_scalar_iff, Formula.conjuncts_and_assoc,
        and_self]

end RefinedType

namespace TypeAssignment

variable {assignment first later : TypeAssignment}

theorem Acyclic.apply_addRefinement (acyclic : assignment.Acyclic) (t : RefinedType)
    (formula : Formula) :
    (assignment.apply (t.addRefinement formula)).SameConjuncts
      ((assignment.apply t).addRefinement (assignment.applyFormula formula)) := by
  cases t with
  | function name argument result => rfl
  | scalar base arguments refinement =>
      by_cases keeps : assignment.Keeps base arguments
      · rw [apply_addRefinement_of_keeps keeps]
        rfl
      · obtain ⟨name, t, rfl, rfl, found⟩ := exists_of_not_keeps keeps
        have conjoined : assignment.applyFormula (refinement.and formula) =
            (assignment.applyFormula refinement).and (assignment.applyFormula formula) :=
          Formula.instantiateSorts_and _ _ _
        rw [RefinedType.addRefinement, acyclic.apply_typeVar found,
          acyclic.apply_typeVar found, conjoined]
        exact RefinedType.sameConjuncts_addRefinement_and _ _ _

theorem Acyclic.sameConjuncts_apply (acyclic : later.Acyclic) (kinded : later.WellKinded)
    (longer : ∀ name t, first.find? name = some t → later.find? name = some t)
    (t : RefinedType) :
    (later.apply (first.apply t)).SameConjuncts (later.apply t) := by
  have refined (f : Formula) :
      later.applyFormula (first.applyFormula f) = later.applyFormula f :=
    f.instantiateSorts_instantiateSorts (acyclic.sorts kinded) (find?_sorts_mono longer)
  induction t using (acyclic.mono longer).typeInduction with
  | function name argument result argumentInduction resultInduction =>
      exact congrArg₂ (Skeleton.function name) argumentInduction resultInduction
  | assigned name t refinement found induction =>
      rw [(acyclic.mono longer).apply_typeVar found, acyclic.apply_typeVar (longer name t found)]
      have moved := acyclic.apply_addRefinement (first.apply t) (first.applyFormula refinement)
      rw [refined] at moved
      exact moved.trans (induction.addRefinement _)
  | scalar base arguments refinement keeps induction =>
      rw [apply_scalar keeps]
      by_cases alsoKeeps : later.Keeps base arguments
      · rw [apply_scalar (alsoKeeps.map _), apply_scalar alsoKeeps, refined,
          RefinedType.sameConjuncts_scalar_iff, List.map_map, List.map_map, List.map_map]
        exact ⟨rfl, List.map_congr_left induction, rfl⟩
      · obtain ⟨name, t, rfl, rfl, found⟩ := exists_of_not_keeps alsoKeeps
        rw [List.map_nil, acyclic.apply_typeVar found, acyclic.apply_typeVar found, refined]
        rfl

theorem Acyclic.fixes_apply (acyclic : assignment.Acyclic) (kinded : assignment.WellKinded)
    (t : RefinedType) : assignment.Fixes (assignment.apply t) :=
  ⟨fun _ => acyclic.find?_of_mem_apply, acyclic.ofSorts_apply kinded t⟩

/-- It does no harm to apply an assignment early: a longer one applied after it gives what
it gives by itself, up to the association of conjunctions. Applied a second time it changes
nothing, and no variable that it assigns is left, unless it carries arguments, as it then
does in the type itself. -/
theorem early_application_absorbed (acyclic : later.Acyclic) (kinded : later.WellKinded)
    (longer : ∀ name t, first.find? name = some t → later.find? name = some t)
    (t : RefinedType) :
    (later.apply (first.apply t)).SameConjuncts (later.apply t) ∧
      first.apply (first.apply t) = first.apply t ∧
      (∀ name ∈ (first.apply t).toTerm.vars, first.find? name = none) ∧
      (t.toTerm.WellKinded →
        ∀ name ∈ (first.apply t).typeVarOccurrences, first.find? name = none) ∧
      (first.apply t).OfSorts first.Settled := by
  have shorter : first.Acyclic := acyclic.mono longer
  have shorterKinded : first.WellKinded := fun name t found => kinded name t (longer name t found)
  have fixes := shorter.fixes_apply shorterKinded t
  refine ⟨acyclic.sameConjuncts_apply kinded longer t, fixes.apply, fixes.isOpen, ?_,
    fixes.settled⟩
  intro type name occurs
  rw [Skeleton.typeVarOccurrences_eq_vars (shorterKinded.apply type)] at occurs
  exact fixes.isOpen name occurs

def linkedVariable : TypeAssignment :=
  .ofList [("a", .atom (.typeVar "b")
    (.atLeast (.value (.var "b")) (.var (.var "b") "least")))]

def linkedNumber : TypeAssignment :=
  linkedVariable.insert "b" (.atom .int (.lessThan (.value .int) (.var .int "limit")))

theorem linkedNumber_acyclic : linkedNumber.Acyclic :=
  acyclic_of_entries (fun name => if name = "a" then 1 else 0) (by decide)

theorem linkedNumber_wellKinded : linkedNumber.WellKinded := fun name t found =>
  (by decide : ∀ entry ∈ linkedNumber.entries, entry.2.toTerm.WellKinded) _
    (SortedMap.mem_entries_of_find? found)

/-- Three refinements meet on the way from the element type to a number. They are bracketed
to the right where the chain is followed in two steps, and to the left in one. -/
theorem linkedList_applied_early :
    let list : RefinedType := .scalar (.data "List")
      [.atom (.typeVar "a") (.equals (.value (.var "a")) (.var (.var "a") "x"))] .top
    let above := Formula.atLeast (.value .int) (.var .int "least")
    let below := Formula.lessThan (.value .int) (.var .int "limit")
    let same := Formula.equals (.value .int) (.var .int "x")
    linkedNumber.Acyclic ∧ linkedNumber.WellKinded ∧
      (∀ name t, linkedVariable.find? name = some t → linkedNumber.find? name = some t) ∧
      linkedNumber.apply (linkedVariable.apply list) =
        .scalar (.data "List") [.atom .int (below.and (above.and same))] .top ∧
      linkedNumber.apply list =
        .scalar (.data "List") [.atom .int ((below.and above).and same)] .top ∧
      (linkedNumber.apply (linkedVariable.apply list)).SameConjuncts
        (linkedNumber.apply list) := by
  intro list above below same
  have longer : ∀ name t,
      linkedVariable.find? name = some t → linkedNumber.find? name = some t :=
    fun name t found =>
      (by decide : ∀ entry ∈ linkedVariable.entries,
        linkedNumber.find? entry.1 = some entry.2) _ (SortedMap.mem_entries_of_find? found)
  refine ⟨linkedNumber_acyclic, linkedNumber_wellKinded, longer, by decide, by decide, ?_⟩
  exact (early_application_absorbed linkedNumber_acyclic linkedNumber_wellKinded longer list).1

end TypeAssignment

end Inhabit
