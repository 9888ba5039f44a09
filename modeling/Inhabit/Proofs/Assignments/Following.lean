import Inhabit.Proofs.Sorts.Assignments

/-! Assignments without cycles, as they act on types: a variable that is assigned a type
becomes what that type becomes, and everything else keeps its form. Induction follows the
assignment in the same way. -/

namespace Inhabit

namespace TypeAssignment

variable {assignment : TypeAssignment}

/-- A scalar with this base and these arguments is not replaced. -/
def Keeps (assignment : TypeAssignment) (base : BaseType) (arguments : List RefinedType) :
    Prop :=
  ∀ name, base = .typeVar name → arguments = [] → assignment.find? name = none

theorem exists_of_not_keeps {base : BaseType} {arguments : List RefinedType}
    (replaces : ¬assignment.Keeps base arguments) :
    ∃ name t, base = .typeVar name ∧ arguments = [] ∧ assignment.find? name = some t := by
  unfold Keeps at replaces
  push Not at replaces
  obtain ⟨name, isVar, none, isAssigned⟩ := replaces
  obtain ⟨t, found⟩ := Option.ne_none_iff_exists'.mp isAssigned
  exact ⟨name, t, isVar, none, found⟩

theorem Acyclic.resolve_eq (acyclic : assignment.Acyclic) (name : String) :
    assignment.resolve name = (assignment.find? name).map assignment.apply := by
  rw [← acyclic.resolveWithin_of_size_le (Nat.le_succ _) name, resolveWithin]
  rfl

/-! ## The form of what becomes of a type -/

theorem apply_function (assignment : TypeAssignment) (name : String)
    (argument result : RefinedType) :
    assignment.apply (.function name argument result) =
      .function name (assignment.apply argument) (assignment.apply result) := rfl

theorem apply_scalar {base : BaseType} {arguments : List RefinedType}
    (keeps : assignment.Keeps base arguments) (refinement : Formula) :
    assignment.apply (.scalar base arguments refinement) =
      .scalar base (arguments.map assignment.apply) (assignment.applyFormula refinement) := by
  cases arguments with
  | cons head rest => exact RefinedType.instantiate_scalar_cons _ _ _ _ _ _
  | nil =>
      cases base with
      | bool | int | data _ => rfl
      | typeVar name =>
          have unresolved : assignment.resolve name = none :=
            resolveWithin_of_unassigned (keeps name rfl rfl) _ _
          rw [apply, RefinedType.instantiate, unresolved]
          rfl

theorem Keeps.map {base : BaseType} {arguments : List RefinedType}
    (keeps : assignment.Keeps base arguments) (transform : RefinedType → RefinedType) :
    assignment.Keeps base (arguments.map transform) :=
  fun name isVar none => keeps name isVar (List.map_eq_nil_iff.mp none)

theorem keeps_typeVar {name : String} (isOpen : assignment.find? name = none)
    (arguments : List RefinedType) : assignment.Keeps (.typeVar name) arguments := by
  rintro _ ⟨⟩ -
  exact isOpen

theorem keeps_of_open {base : BaseType} {arguments : List RefinedType} {refinement : Formula}
    (isOpen : ∀ name ∈ (Skeleton.scalar base arguments refinement).toTerm.vars,
      assignment.find? name = none) : assignment.Keeps base arguments := by
  rintro name rfl rfl
  exact isOpen name (List.mem_singleton_self name)

theorem apply_addRefinement_of_keeps {base : BaseType} {arguments : List RefinedType}
    (keeps : assignment.Keeps base arguments) (refinement formula : Formula) :
    assignment.apply (RefinedType.addRefinement formula (.scalar base arguments refinement)) =
      (assignment.apply (.scalar base arguments refinement)).addRefinement
        (assignment.applyFormula formula) := by
  rw [RefinedType.addRefinement, apply_scalar keeps, apply_scalar keeps]
  exact congrArg (Skeleton.scalar base _) (Formula.instantiateSorts_and _ _ _)

theorem Acyclic.apply_typeVar (acyclic : assignment.Acyclic) {name : String} {t : RefinedType}
    (found : assignment.find? name = some t) (refinement : Formula) :
    assignment.apply (.atom (.typeVar name) refinement) =
      (assignment.apply t).addRefinement (assignment.applyFormula refinement) := by
  rw [apply, RefinedType.instantiate, acyclic.resolve_eq, found]
  rfl

theorem Acyclic.typeInduction (acyclic : assignment.Acyclic) {motive : RefinedType → Prop}
    (scalar : ∀ base arguments refinement, assignment.Keeps base arguments →
      (∀ t ∈ arguments, motive t) → motive (.scalar base arguments refinement))
    (function : ∀ name argument result, motive argument → motive result →
      motive (.function name argument result))
    (assigned : ∀ name t refinement, assignment.find? name = some t → motive t →
      motive (.atom (.typeVar name) refinement)) (t : RefinedType) : motive t := by
  obtain ⟨rank, falls, bounded, _⟩ := acyclic.exists_rank
  suffices below : ∀ bound t, (∀ name ∈ t.toTerm.vars, rank name < bound) → motive t from
    below (assignment.size + 1) t fun name _ => Nat.lt_succ_of_le (bounded name)
  clear t
  -- An assigned type is of lower rank than its variable, and the parts of a type are no
  -- higher than the type.
  intro bound
  induction bound using Nat.strong_induction_on with
  | _ bound deeper =>
      intro t within
      induction t using Skeleton.induction with
      | function name argument result first second =>
          rw [Skeleton.vars_function, List.forall_mem_append] at within
          exact function name argument result (first within.1) (second within.2)
      | scalar base arguments refinement induction =>
          by_cases keeps : assignment.Keeps base arguments
          · refine scalar base arguments refinement keeps fun t member => ?_
            exact induction t member fun name occurs =>
              within name (Skeleton.vars_subset_of_mem_arguments member refinement occurs)
          · obtain ⟨name, t, rfl, rfl, found⟩ := exists_of_not_keeps keeps
            refine assigned name t refinement found
              (deeper (rank name) (within name (List.mem_singleton_self name)) t ?_)
            exact fun other occurs => falls name other ⟨t, found, occurs⟩

theorem Acyclic.mono {shorter : TypeAssignment} (acyclic : assignment.Acyclic)
    (longer : ∀ name t, shorter.find? name = some t → assignment.find? name = some t) :
    shorter.Acyclic :=
  fun name cycle => acyclic name (Relation.TransGen.mono
    (fun _ _ refers => refers.imp fun t => And.imp_left (longer _ t)) _ _ cycle)

theorem find?_sorts_of_open {name : String} (isOpen : assignment.find? name = none) :
    assignment.sorts.find? name = none := by
  rw [find?_sorts, isOpen, Option.bind_none]

theorem instantiate_var_of_open {name : String} (isOpen : assignment.find? name = none) :
    (LogicSort.var name).instantiate assignment.sorts = .var name := by
  refine LogicSort.instantiate_of_open ?_
  rintro _ ⟨⟩
  exact find?_sorts_of_open isOpen

theorem find?_sorts_mono {shorter : TypeAssignment}
    (longer : ∀ name t, shorter.find? name = some t → assignment.find? name = some t)
    (name : String) (sort : LogicSort) (found : shorter.sorts.find? name = some sort) :
    assignment.sorts.find? name = some sort := by
  rw [find?_sorts, Option.bind_eq_some_iff] at found ⊢
  exact found.imp fun t => And.imp_left (longer name t)

end TypeAssignment

end Inhabit
