import Inhabit.Proofs.Assignments.Following
import Inhabit.Proofs.Matching.Instances

/-! Well-sorted types, in which a refinement speaks of the value at the sort of the base
type.

Base types are followed through assigned types, and sorts through the sorts of these. The
two ways end alike, so the refinements that are collected on one of them still speak of the
same value. -/

namespace Inhabit

/-! ## Formulas -/

namespace Formula

mutual

/-- The sorts at which a formula speaks of the value, one for each occurrence. What is
pending for an unknown counts. -/
def valueSorts : Formula → List LogicSort
  | .bool _ | .int _ => []
  | .var sort name => if name = valueName then [sort] else []
  | .unknown pending _ => valueSortsEntries pending
  | .unary _ f | .measure _ _ f => valueSorts f
  | .binary _ f g => valueSorts f ++ valueSorts g
  | .ite f g h => valueSorts f ++ (valueSorts g ++ valueSorts h)
termination_by structural f => f

def valueSortsEntries : List (String × Formula) → List LogicSort
  | [] => []
  | (_, f) :: rest => valueSorts f ++ valueSortsEntries rest
termination_by structural entries => entries

end

def ValueAt (sort : LogicSort) (f : Formula) : Prop := ∀ other ∈ f.valueSorts, other = sort

instance (sort : LogicSort) (f : Formula) : Decidable (f.ValueAt sort) :=
  inferInstanceAs (Decidable (∀ other ∈ _, _))

theorem valueSortsEntries_eq_flatMap (entries : List (String × Formula)) :
    valueSortsEntries entries = entries.flatMap fun entry => entry.2.valueSorts := by
  induction entries with
  | nil => rfl
  | cons _ _ induction => exact congrArg (_ ++ ·) induction

section ValueAt

variable {sort : LogicSort} {f left right : Formula}

theorem valueAt_var_of_ne {name : String} (different : name ≠ valueName) (other : LogicSort) :
    (Formula.var other name).ValueAt sort := by
  rw [ValueAt, valueSorts, if_neg different]
  exact List.forall_mem_nil _

theorem valueAt_unknown {pending : Substitution} {name : String} :
    (Formula.unknown pending name).ValueAt sort ↔ ∀ entry ∈ pending, entry.2.ValueAt sort := by
  unfold ValueAt
  rw [valueSorts, valueSortsEntries_eq_flatMap, List.forall_mem_flatMap]

theorem valueAt_binary {op : BinaryOp} :
    (Formula.binary op left right).ValueAt sort ↔ left.ValueAt sort ∧ right.ValueAt sort :=
  List.forall_mem_append

theorem valueAt_ite {condition : Formula} :
    (Formula.ite condition left right).ValueAt sort ↔
      condition.ValueAt sort ∧ left.ValueAt sort ∧ right.ValueAt sort :=
  List.forall_mem_append.trans (and_congr_right' List.forall_mem_append)

theorem ValueAt.and (first : left.ValueAt sort) (second : right.ValueAt sort) :
    (left.and right).ValueAt sort :=
  and_cases (motive := ValueAt sort) first second (valueAt_binary.mpr ⟨first, second⟩)

theorem ValueAt.substitute (valueAt : f.ValueAt sort) {substitution : Substitution}
    (images : ∀ entry ∈ substitution, entry.2.ValueAt sort) :
    (f.substitute substitution).ValueAt sort := by
  induction f using Formula.deepInduction with
  | bool | int => exact valueAt
  | var other name =>
      rw [Formula.substitute]
      cases found : Entries.find? name substitution with
      | none => exact valueAt
      | some replacement => exact images _ (Entries.mem_of_find? found)
  | unknown pending name induction =>
      rw [valueAt_unknown] at valueAt
      rw [Formula.substitute, valueAt_unknown, substituteEntries_eq_map]
      intro entry member
      rcases Substitution.mem_extend member with own | image
      · obtain ⟨entry, inside, rfl⟩ := List.mem_map.mp own
        exact induction entry inside (valueAt entry inside)
      · exact images entry image
  | unary op f induction | measure _ _ f induction => exact induction valueAt
  | binary op f g first second =>
      exact valueAt_binary.mpr ((valueAt_binary.mp valueAt).imp first second)
  | ite f g h first second third =>
      exact valueAt_ite.mpr ((valueAt_ite.mp valueAt).imp first (And.imp second third))

theorem ValueAt.instantiateSorts (valueAt : f.ValueAt sort) (sorts : SortAssignment) :
    (f.instantiateSorts sorts).ValueAt (sort.instantiate sorts) := by
  induction f using Formula.deepInduction with
  | bool | int => exact List.forall_mem_nil _
  | var other name =>
      by_cases isValue : name = valueName
      · subst isValue
        have same : other = sort := valueAt other (List.mem_singleton_self other)
        subst same
        exact List.forall_mem_singleton.mpr rfl
      · exact valueAt_var_of_ne isValue _
  | unknown pending name induction =>
      rw [valueAt_unknown] at valueAt
      rw [Formula.instantiateSorts, valueAt_unknown, instantiateSortsEntries_eq_map,
        List.forall_mem_map]
      exact fun entry member => induction entry member (valueAt entry member)
  | unary op f induction | measure _ _ f induction => exact induction valueAt
  | binary op f g first second =>
      exact valueAt_binary.mpr ((valueAt_binary.mp valueAt).imp first second)
  | ite f g h first second third =>
      exact valueAt_ite.mpr ((valueAt_ite.mp valueAt).imp first (And.imp second third))

end ValueAt

end Formula

/-! ## Types -/

namespace RefinedType

mutual

def ValuesSorted : RefinedType → Prop
  | .scalar base arguments refinement =>
      refinement.ValueAt base.sort ∧ ValuesSortedAll arguments
  | .function _ argument result => ValuesSorted argument ∧ ValuesSorted result
termination_by structural t => t

def ValuesSortedAll : List RefinedType → Prop
  | [] => True
  | t :: rest => ValuesSorted t ∧ ValuesSortedAll rest
termination_by structural ts => ts

end

mutual

instance decidableValuesSorted (t : RefinedType) : Decidable t.ValuesSorted :=
  match t with
  | .scalar base arguments refinement =>
      have := decidableValuesSortedAll arguments
      inferInstanceAs (Decidable (refinement.ValueAt base.sort ∧ ValuesSortedAll arguments))
  | .function _ argument result =>
      have := decidableValuesSorted argument
      have := decidableValuesSorted result
      inferInstanceAs (Decidable (ValuesSorted argument ∧ ValuesSorted result))
termination_by structural t

instance decidableValuesSortedAll (ts : List RefinedType) : Decidable (ValuesSortedAll ts) :=
  match ts with
  | [] => instDecidableTrue
  | t :: rest =>
      have := decidableValuesSorted t
      have := decidableValuesSortedAll rest
      inferInstanceAs (Decidable (t.ValuesSorted ∧ ValuesSortedAll rest))
termination_by structural ts

end

/-- Refinements speak of values at the sorts of their base types, and no type variable
carries arguments. -/
structure WellSorted (t : RefinedType) : Prop where
  kinded : t.toTerm.WellKinded
  values : t.ValuesSorted

instance (t : RefinedType) : Decidable t.WellSorted :=
  decidable_of_iff (t.toTerm.WellKinded ∧ t.ValuesSorted)
    ⟨fun both => ⟨both.1, both.2⟩, fun sorted => ⟨sorted.kinded, sorted.values⟩⟩

theorem valuesSorted_scalar {base : BaseType} {arguments : List RefinedType}
    {refinement : Formula} :
    ValuesSorted (.scalar base arguments refinement) ↔
      refinement.ValueAt base.sort ∧ ∀ t ∈ arguments, t.ValuesSorted := by
  have inside : ValuesSortedAll arguments ↔ ∀ t ∈ arguments, t.ValuesSorted := by
    induction arguments with
    | nil => exact iff_of_true trivial (List.forall_mem_nil _)
    | cons _ _ induction => rw [ValuesSortedAll, induction, List.forall_mem_cons]
  rw [ValuesSorted, inside]

@[simp] theorem base?_addRefinement (t : RefinedType) (formula : Formula) :
    (t.addRefinement formula).base? = t.base? := by
  cases t <;> rfl

theorem ValuesSorted.substitute {t : RefinedType} (sorted : t.ValuesSorted)
    {substitution : Substitution} (images : ∀ entry ∈ substitution, entry.2.valueSorts = []) :
    (RefinedType.substitute substitution t).ValuesSorted := by
  induction t using Skeleton.induction generalizing substitution with
  | function name argument result first second =>
      exact ⟨first sorted.1 images, second sorted.2 fun entry member =>
        images entry (List.mem_filter.mp member).1⟩
  | scalar base arguments refinement induction =>
      rw [valuesSorted_scalar] at sorted
      rw [RefinedType.substitute, substituteAll_eq_map, valuesSorted_scalar, List.forall_mem_map]
      refine ⟨sorted.1.substitute fun entry member other occurs => ?_,
        fun t member => induction t member (sorted.2 t member) images⟩
      rw [images entry member] at occurs
      cases occurs

theorem WellSorted.renameVar {t : RefinedType} (sorted : t.WellSorted) (old : String)
    {new : String} (proper : new ≠ valueName) (oldType : RefinedType) :
    (t.renameVar old new oldType).WellSorted where
  kinded := by rw [toTerm_renameVar]; exact sorted.kinded
  values := by
    cases oldType with
    | function _ _ _ => exact sorted.values
    | scalar base _ _ =>
        refine sorted.values.substitute (List.forall_mem_singleton.mpr ?_)
        exact if_neg proper

end RefinedType

namespace TypeAssignment

variable {assignment : TypeAssignment}

/-! ## Both ways of following an assignment -/

theorem Keeps.open_sort {base : BaseType} {arguments : List RefinedType} {refinement : Formula}
    (keeps : assignment.Keeps base arguments)
    (kinded : (Skeleton.scalar base arguments refinement).toTerm.WellKinded) :
    base.sort.IsOpen assignment.sorts := by
  intro name isVar
  cases base with
  | bool | int | data _ => cases isVar
  | typeVar other =>
      cases isVar
      cases arguments with
      | cons head rest => exact absurd rfl (Skeleton.base_ne_of_wellKinded kinded name)
      | nil => exact find?_sorts_of_open (keeps name rfl rfl)

theorem Acyclic.sort_base_apply (acyclic : assignment.Acyclic) (kinded : assignment.WellKinded)
    {t : RefinedType} (type : t.toTerm.WellKinded) {base image : BaseType}
    (isScalar : t.base? = some base) (becomes : (assignment.apply t).base? = some image) :
    image.sort = base.sort.instantiate assignment.sorts := by
  induction t using acyclic.typeInduction generalizing base with
  | function name argument result => cases isScalar
  | scalar base arguments refinement keeps =>
      rw [apply_scalar keeps] at becomes
      cases isScalar
      cases becomes
      exact (LogicSort.instantiate_of_open (keeps.open_sort type)).symm
  | assigned name t refinement found induction =>
      rw [acyclic.apply_typeVar found, RefinedType.base?_addRefinement] at becomes
      cases isScalar
      cases t with
      | function _ _ _ => cases becomes
      | scalar assigned arguments assignedRefinement =>
          have step : assignment.sorts.find? name = some assigned.sort := by
            rw [find?_sorts, found]
            rfl
          rw [induction (kinded name _ found) rfl becomes]
          exact (LogicSort.instantiate_of_assigned (acyclic.sorts kinded) step).symm

def WellSorted (assignment : TypeAssignment) : Prop :=
  ∀ name t, assignment.find? name = some t → t.WellSorted

theorem WellSorted.wellKinded (sorted : assignment.WellSorted) : assignment.WellKinded :=
  fun name t found => (sorted name t found).kinded

theorem Acyclic.valuesSorted_apply (acyclic : assignment.Acyclic)
    (sorted : assignment.WellSorted) {t : RefinedType} (type : t.WellSorted) :
    (assignment.apply t).ValuesSorted := by
  induction t using acyclic.typeInduction with
  | function name argument result first second =>
      obtain ⟨argumentKinded, resultKinded⟩ := Skeleton.wellKinded_function type.kinded
      exact ⟨first ⟨argumentKinded, type.values.1⟩, second ⟨resultKinded, type.values.2⟩⟩
  | scalar base arguments refinement keeps induction =>
      have values := RefinedType.valuesSorted_scalar.mp type.values
      have settled := LogicSort.instantiate_of_open (keeps.open_sort type.kinded)
      rw [apply_scalar keeps, RefinedType.valuesSorted_scalar, List.forall_mem_map]
      constructor
      · have refined := values.1.instantiateSorts assignment.sorts
        rwa [settled] at refined
      · exact fun t member => induction t member
          ⟨Skeleton.wellKinded_of_mem_arguments type.kinded member, values.2 t member⟩
  | assigned name t refinement found induction =>
      have assigned := induction (sorted name t found)
      have becomes := acyclic.apply_typeVar found refinement
      have valueAt := (RefinedType.valuesSorted_scalar.mp type.values).1.instantiateSorts
        assignment.sorts
      cases image : assignment.apply t with
      | function _ _ _ =>
          rw [image] at becomes assigned
          rw [becomes]
          exact assigned
      | scalar base arguments collected =>
          rw [image, RefinedType.valuesSorted_scalar] at assigned
          rw [image] at becomes
          have same := acyclic.sort_base_apply sorted.wellKinded type.kinded rfl
            (congrArg Skeleton.base? becomes)
          rw [becomes, RefinedType.addRefinement, RefinedType.valuesSorted_scalar]
          exact ⟨assigned.1.and (same ▸ valueAt), assigned.2⟩

theorem Acyclic.wellSorted_apply (acyclic : assignment.Acyclic) (sorted : assignment.WellSorted)
    {t : RefinedType} (type : t.WellSorted) : (assignment.apply t).WellSorted :=
  ⟨sorted.wellKinded.apply type.kinded, acyclic.valuesSorted_apply sorted type⟩

end TypeAssignment

theorem Schema.wellSorted_instantiate {schema : Schema} (body : schema.body.WellSorted)
    {supply : NameSupply} (future : ∀ name ∈ schema.boundVars, supply.Avoids name) :
    (schema.instantiate.run supply).1.WellSorted := by
  obtain ⟨images, after, opened, ran, opens⟩ := schema.exists_opens supply
  rw [ran]
  refine (opens.acyclic future).wellSorted_apply (fun name t found => ?_) body
  obtain ⟨_, rfl⟩ := opens.of_find? found
  exact ⟨.var _, RefinedType.valuesSorted_scalar.mpr ⟨List.forall_mem_nil _, List.forall_mem_nil _⟩⟩

namespace TypeAssignment

variable {assignment : TypeAssignment}

/-- Types and sorts are resolved alike: a well-sorted type stays well sorted, and a scalar
that becomes a scalar is of the sort that its sort becomes. Instances of schemas and renamed
types are well sorted too. -/
theorem resolution_agrees_with_sorts (acyclic : assignment.Acyclic)
    (sorted : assignment.WellSorted) :
    (∀ t : RefinedType, t.WellSorted → (assignment.apply t).WellSorted) ∧
      (∀ (t : RefinedType) (base image : BaseType), t.toTerm.WellKinded →
        t.base? = some base → (assignment.apply t).base? = some image →
          image.sort = base.sort.instantiate assignment.sorts) ∧
      (∀ (schema : Schema) (supply : NameSupply), schema.body.WellSorted →
        (∀ name ∈ schema.boundVars, supply.Avoids name) →
          (schema.instantiate.run supply).1.WellSorted) ∧
      ∀ (t oldType : RefinedType) (old new : String), t.WellSorted → old ≠ valueName →
        new ≠ valueName → (t.renameVar old new oldType).WellSorted :=
  ⟨fun _ => acyclic.wellSorted_apply sorted,
    fun _ _ _ kinded => acyclic.sort_base_apply sorted.wellKinded kinded,
    fun _ _ body => Schema.wellSorted_instantiate body,
    fun _ oldType old _ type _ proper => type.renameVar old proper oldType⟩

def chainedNumber : TypeAssignment :=
  .ofList [("a", .atom (.typeVar "b")
      (.atLeast (.value (.var "b")) (.var (.var "b") "least"))),
    ("b", .atom .int (.unknown [("n", .value .int)] "_u0"))]

/-- Three refinements that speak of the value at three sorts, two of them in what is pending
for an unknown, come to speak of it at one. -/
theorem chainedNumber_agrees_with_sorts :
    let refined (base : BaseType) : RefinedType :=
      .atom base (.unknown [("m", .value base.sort)] "_u1")
    let image : RefinedType := .atom .int
      (((Formula.unknown [("n", .value .int)] "_u0").and
        (.atLeast (.value .int) (.var .int "least"))).and
          (.unknown [("m", .value .int)] "_u1"))
    let schema := Schema.generalize ["a"] (refined (.typeVar "a"))
    chainedNumber.Acyclic ∧ chainedNumber.WellSorted ∧
      chainedNumber.apply (refined (.typeVar "a")) = image ∧ image.WellSorted ∧
      LogicSort.int = (LogicSort.var "a").instantiate chainedNumber.sorts ∧
      (schema.instantiate.run {}).1 = refined (.typeVar "_a0") ∧
      (refined (.typeVar "_a0")).WellSorted ∧
      (image.renameVar "least" "most" (.atom .int .top)).WellSorted := by
  intro refined image schema
  have acyclic : chainedNumber.Acyclic :=
    acyclic_of_entries (fun name => if name = "a" then 1 else 0) (by decide)
  have sorted : chainedNumber.WellSorted := fun name t found =>
    (by decide : ∀ entry ∈ chainedNumber.entries, entry.2.WellSorted) _
      (SortedMap.mem_entries_of_find? found)
  have applied : chainedNumber.apply (refined (.typeVar "a")) = image := by decide
  have opened : (schema.instantiate.run {}).1 = refined (.typeVar "_a0") := by decide
  obtain ⟨apply, sorts, instantiate, rename⟩ := resolution_agrees_with_sorts acyclic sorted
  have whole : image.WellSorted := applied ▸ apply _ (by decide)
  have future : ∀ name ∈ schema.boundVars, NameSupply.Avoids {} name :=
    NameSupply.forall_avoids (by decide) _
  refine ⟨acyclic, sorted, applied, whole, ?_, opened, ?_, ?_⟩
  · exact sorts (refined (.typeVar "a")) _ _ (by decide) rfl (congrArg Skeleton.base? applied)
  · exact opened ▸ instantiate schema {} (by decide) future
  · exact rename image _ "least" "most" whole (by decide) (by decide)

end TypeAssignment

end Inhabit
