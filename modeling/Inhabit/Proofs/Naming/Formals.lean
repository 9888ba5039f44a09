import Inhabit.Proofs.Naming.ArgumentRenaming

/-! Other names for the arguments of a type, from the first one on.

The result of a function speaks of its argument by name, and so does whatever is put in the
place of a type variable there, whether it means the argument or not. Renaming an argument
can be put off until a type has been instantiated if nothing that is put in speaks of the
name. -/

namespace Inhabit

open Skeleton RefinedType

/-! ## Instantiation and renaming -/

namespace Formula

variable {old new : String}

theorem rename_and (f g : Formula) :
    (f.and g).rename old new = (f.rename old new).and (g.rename old new) := by
  simp only [Formula.and, isTrue_rename, isFalse_rename]
  split
  · rfl
  · split <;> rfl

theorem instantiateSorts_rename (sorts : SortAssignment) (f : Formula) :
    (f.rename old new).instantiateSorts sorts =
      (f.instantiateSorts sorts).rename old new := by
  unfold rename
  induction f using Formula.induction with
  | bool | int | var | unknown => rfl
  | unary op f induction | measure sort name f induction =>
      simp only [mapVars, instantiateSorts, induction]
  | binary op f g first second => simp only [mapVars, instantiateSorts, first, second]
  | ite f g h first second third =>
      simp only [mapVars, instantiateSorts, first, second, third]

end Formula

namespace RefinedType

variable {old new : String}

theorem rename_addRefinement (formula : Formula) (t : RefinedType) :
    (t.addRefinement formula).rename old new =
      (t.rename old new).addRefinement (formula.rename old new) := by
  cases t with
  | function _ _ _ => rfl
  | scalar base arguments refinement =>
      rw [addRefinement, rename_scalar, rename_scalar, addRefinement, Formula.rename_and]

theorem instantiate_rename {sorts : SortAssignment} {image : String → Option RefinedType}
    {t : RefinedType}
    (uncaptured : ∀ name ∈ t.toTerm.vars, ∀ u ∈ image name, old ∉ u.freeVars) :
    instantiate sorts image (t.rename old new) = (instantiate sorts image t).rename old new := by
  induction t using Skeleton.induction with
  | function name argument result first second =>
      rw [vars_function, List.forall_mem_append] at uncaptured
      rw [rename_function, instantiate, instantiate, rename_function, first uncaptured.1]
      congr 1
      split
      · rfl
      · exact second uncaptured.2
  | scalar base arguments refinement induction =>
      cases arguments with
      | nil =>
          cases base with
          | bool | int | data _ =>
              exact congrArg _ (Formula.instantiateSorts_rename sorts refinement)
          | typeVar name =>
              have apart := uncaptured name (List.mem_singleton_self name)
              rw [rename_scalar, List.map_nil, instantiate, instantiate,
                Formula.instantiateSorts_rename]
              cases stands : image name with
              | none => rfl
              | some u =>
                  dsimp only
                  rw [rename_addRefinement, rename_of_not_mem (apart u stands)]
      | cons head rest =>
          rw [vars_scalar_cons, List.forall_mem_flatMap] at uncaptured
          have inside : (head :: rest).map (instantiate sorts image ∘ rename old new) =
              (head :: rest).map (rename old new ∘ instantiate sorts image) :=
            List.map_congr_left fun t member => induction t member (uncaptured t member)
          rw [rename_scalar, instantiate_scalar_cons, rename_scalar, List.map_cons,
            instantiate_scalar_cons, ← List.map_cons, List.map_map, List.map_map, inside,
            Formula.instantiateSorts_rename]

end RefinedType

/-! ## Formal arguments -/

def Skeleton.formals (t : Skeleton ρ) : List String := t.parameters.map Prod.fst

namespace RefinedType

variable {old new : String}

def renameFormals : (names : List String) → RefinedType → RefinedType
  | new :: rest, .function name argument result =>
      .function new argument (renameFormals rest (RefinedType.rename name new result))
  | _, t => t

theorem renameFormals_nil (t : RefinedType) : t.renameFormals [] = t := by
  cases t <;> rfl

theorem formals_function (name : String) (argument result : RefinedType) :
    formals (.function name argument result) = name :: result.formals := rfl

theorem formals_subset_argumentNames (t : RefinedType) : t.formals ⊆ t.argumentNames := by
  induction t using Skeleton.induction with
  | scalar => exact List.nil_subset _
  | function name argument result _ second =>
      rw [formals_function, argumentNames_function]
      exact List.cons_subset_cons _ (List.subset_append_of_subset_right _ second)

theorem formals_rename (t : RefinedType) : (t.rename old new).formals = t.formals := by
  induction t using Skeleton.induction with
  | scalar => rfl
  | function name argument result _ second =>
      rw [rename_function, formals_function, formals_function]
      split
      · rfl
      · rw [second]

theorem arity_rename (t : RefinedType) : (t.rename old new).arity = t.arity := by
  rw [← length_parameters, ← length_parameters, ← List.length_map Prod.fst,
    ← List.length_map Prod.fst]
  exact congrArg List.length (formals_rename t)

theorem formals_substitute (substitution : Substitution) (t : RefinedType) :
    (t.substitute substitution).formals = t.formals := by
  induction t using Skeleton.induction generalizing substitution with
  | scalar => rfl
  | function name argument result _ second =>
      rw [RefinedType.substitute, formals_function, formals_function, second]

theorem formals_renameVar (t : RefinedType) (x y : String) (type : RefinedType) :
    (t.renameVar x y type).formals = t.formals := by
  cases type with
  | scalar _ _ _ => exact formals_substitute _ t
  | function _ _ _ => rfl

theorem formals_subset_instantiate (sorts : SortAssignment)
    (image : String → Option RefinedType) (t : RefinedType) :
    t.formals ⊆ (instantiate sorts image t).formals := by
  induction t using Skeleton.induction with
  | scalar => exact List.nil_subset _
  | function name argument result _ second =>
      rw [instantiate, formals_function, formals_function]
      exact List.cons_subset_cons _ second

theorem vars_parameter_subset {t argument : RefinedType} {position : Nat} {name : String}
    (listed : t.parameters[position]? = some (name, argument)) :
    argument.toTerm.vars ⊆ t.toTerm.vars := by
  induction position generalizing t with
  | zero =>
      cases t with
      | scalar => cases listed
      | function _ _ _ =>
          cases listed
          rw [vars_function]
          exact List.subset_append_left _ _
  | succ position induction =>
      cases t with
      | scalar => cases listed
      | function _ _ _ =>
          rw [vars_function]
          exact List.subset_append_of_subset_right _ (induction listed)

theorem getElem?_parameters_instantiate {sorts : SortAssignment}
    {image : String → Option RefinedType} {t argument : RefinedType} {position : Nat}
    {name : String} (listed : t.parameters[position]? = some (name, argument)) :
    (instantiate sorts image t).parameters[position]? =
      some (name, instantiate sorts image argument) := by
  induction position generalizing t with
  | zero =>
      cases t with
      | scalar => cases listed
      | function _ _ _ =>
          cases listed
          rfl
  | succ position induction =>
      cases t with
      | scalar => cases listed
      | function _ _ _ => exact induction listed

/-- The arguments can be called otherwise before or after types take the place of type
variables, unless those types speak of an argument. -/
theorem instantiate_renameFormals {sorts : SortAssignment}
    {image : String → Option RefinedType} {names : List String} {t : RefinedType}
    (length : names.length ≤ t.arity)
    (uncaptured : ∀ name ∈ t.toTerm.vars, ∀ u ∈ image name,
      ∀ formal ∈ t.formals, formal ∉ u.freeVars) :
    instantiate sorts image (t.renameFormals names) =
      (instantiate sorts image t).renameFormals names := by
  induction names generalizing t with
  | nil => rw [renameFormals_nil, renameFormals_nil]
  | cons new rest induction =>
      cases t with
      | scalar => simp [arity] at length
      | function name argument result =>
          rw [vars_function, List.forall_mem_append] at uncaptured
          have here : instantiate sorts image (RefinedType.rename name new result) =
              (instantiate sorts image result).rename name new :=
            instantiate_rename fun a occurs u stands =>
              uncaptured.2 a occurs u stands name List.mem_cons_self
          rw [renameFormals, instantiate, instantiate, renameFormals, induction, here]
          · rw [arity_rename]
            exact Nat.le_of_succ_le_succ length
          · intro a occurs u stands formal isFormal
            rw [toTerm_rename] at occurs
            rw [formals_rename] at isFormal
            exact uncaptured.2 a occurs u stands formal (List.mem_cons_of_mem _ isFormal)

/-! ## Replacing what is renamed -/

theorem Known.renameFormals {names : List String} {t : RefinedType} (known : t.Known) :
    (t.renameFormals names).Known := by
  induction names generalizing t with
  | nil => rwa [renameFormals_nil]
  | cons new rest induction =>
      cases t with
      | scalar => exact known
      | function name argument result =>
          rw [known_function] at known
          exact known_function.mpr ⟨known.1, induction known.2.rename⟩

theorem substitute_renameFormals {x y : String} {sort : LogicSort} {names : List String}
    {t : RefinedType} (known : t.Known) (notFormal : x ∉ t.formals) (notName : x ∉ names)
    (apart : y ∉ t.formals) :
    (t.renameFormals names).substitute [(x, .var sort y)] =
      (t.substitute [(x, .var sort y)]).renameFormals names := by
  induction names generalizing t with
  | nil => rw [renameFormals_nil, renameFormals_nil]
  | cons new rest induction =>
      cases t with
      | scalar => rfl
      | function name argument result =>
          rw [formals_function, List.mem_cons, not_or] at notFormal apart
          rw [List.mem_cons, not_or] at notName
          have resultKnown := (known_function.mp known).2
          have here : (RefinedType.rename name new result).substitute [(x, .var sort y)] =
              (RefinedType.substitute [(x, .var sort y)] result).rename name new :=
            substitute_rename_comm resultKnown notFormal.1 notName.1 apart.1
          rw [renameFormals, substitute_function resultKnown.rename.renameFormals,
            if_neg (Ne.symm notName.1), substitute_function resultKnown,
            if_neg (Ne.symm notFormal.1), renameFormals, ← here]
          refine congrArg _ (induction resultKnown.rename ?_ notName.2 ?_)
          · rw [formals_rename]
            exact notFormal.2
          · rw [formals_rename]
            exact apart.2

theorem getElem?_parameters_renameVar {x y : String} {t type argument : RefinedType}
    {position : Nat} {name : String} (known : t.Known)
    (listed : t.parameters[position]? = some (name, argument))
    (absent : x ∉ argument.freeVars) :
    (Skeleton.parameters (t.renameVar x y type))[position]? = some (name, argument) := by
  cases type with
  | function _ _ _ => exact listed
  | scalar base _ _ =>
      rw [RefinedType.renameVar]
      induction position generalizing t with
      | zero =>
          cases t with
          | scalar => cases listed
          | function _ _ _ =>
              cases listed
              rw [substitute_function (known_function.mp known).2,
                substitute_of_not_mem (known_function.mp known).1 absent]
              rfl
      | succ position induction =>
          cases t with
          | scalar => cases listed
          | function parameter first result =>
              have resultKnown := (known_function.mp known).2
              rw [substitute_function resultKnown]
              split
              · exact listed
              · exact induction resultKnown listed

/-- The type does not speak of the arguments that are functions. -/
def SparesFunctions : RefinedType → Prop
  | .function name argument result =>
      (argument.isScalar = false → name ∉ freeVars result) ∧ SparesFunctions result
  | .scalar _ _ _ => True

instance decidableSparesFunctions : (t : RefinedType) → Decidable t.SparesFunctions
  | .scalar _ _ _ => inferInstanceAs (Decidable True)
  | .function name argument result =>
      have := decidableSparesFunctions result
      inferInstanceAs (Decidable ((argument.isScalar = false → name ∉ freeVars result) ∧
        SparesFunctions result))

theorem SparesFunctions.substitute {x y : String} {sort : LogicSort} {t : RefinedType}
    (spares : t.SparesFunctions) (known : t.Known) (apart : y ∉ t.formals) :
    (t.substitute [(x, .var sort y)]).SparesFunctions := by
  induction t using Skeleton.induction with
  | scalar => trivial
  | function name argument result _ second =>
      rw [formals_function, List.mem_cons, not_or] at apart
      have resultKnown := (known_function.mp known).2
      have sameKind : Skeleton.isScalar (RefinedType.substitute [(x, .var sort y)] argument) =
          argument.isScalar := by
        cases argument <;> rfl
      rw [substitute_function resultKnown, SparesFunctions, sameKind]
      split
      · exact spares
      · refine ⟨fun isFunction occurs => ?_, second spares.2 resultKnown apart.2⟩
        rcases mem_freeVars_substitute resultKnown occurs with equal | free
        · exact apart.1 equal.symm
        · exact spares.1 isFunction free.1

theorem SparesFunctions.renameVar {x y : String} {t type : RefinedType}
    (spares : t.SparesFunctions) (known : t.Known) (apart : y ∉ t.formals) :
    (t.renameVar x y type).SparesFunctions := by
  cases type with
  | scalar _ _ _ => exact spares.substitute known apart
  | function _ _ _ => exact spares

structure Unused (names : List String) (t : RefinedType) : Prop where
  distinct : names.Nodup
  notFree : ∀ name ∈ names, name ∉ t.freeVars
  notArgument : ∀ name ∈ names, name ∉ t.argumentNames

theorem renameVar_renameFormals {x y new : String} {names : List String}
    {argument result : RefinedType} (known : result.Known)
    (spares : argument.isScalar = false → x ∉ result.freeVars)
    (unused : Unused (new :: names) (.function x argument result)) (apart : y ∉ result.formals) :
    RefinedType.renameVar (renameFormals names (RefinedType.rename x new result)) new y argument =
      renameFormals names (RefinedType.renameVar result x y argument) := by
  have notResultName : new ∉ result.argumentNames := fun member =>
    unused.notArgument new List.mem_cons_self (by simp [member])
  have notParameter : new ≠ x := by
    rintro rfl
    exact unused.notArgument new List.mem_cons_self (by simp)
  have notFree : new ∉ result.freeVars := fun free =>
    unused.notFree new List.mem_cons_self (mem_freeVars_function.mpr (.inr ⟨free, notParameter⟩))
  cases argument with
  | function _ _ _ =>
      rw [rename_of_not_mem (spares rfl)]
      rfl
  | scalar base _ _ =>
      have notFormal : new ∉ (RefinedType.rename x new result).formals := by
        rw [formals_rename]
        exact fun member => notResultName (formals_subset_argumentNames _ member)
      have apartRenamed : y ∉ (RefinedType.rename x new result).formals := by
        rwa [formals_rename]
      exact (substitute_renameFormals known.rename notFormal
        (List.nodup_cons.mp unused.distinct).1 apartRenamed).trans
          (congrArg _ (substitute_rename known notFree notResultName))

theorem Known.renameVar {t type : RefinedType} (known : t.Known) (x y : String) :
    (t.renameVar x y type).Known := by
  cases type with
  | scalar base _ _ => exact known.substitute base.sort
  | function _ _ _ => exact known

theorem Unused.renameVar {x y new : String} {names : List String}
    {argument result : RefinedType} (known : result.Known)
    (spares : argument.isScalar = false → x ∉ result.freeVars)
    (unused : Unused (new :: names) (.function x argument result)) (notName : y ∉ names) :
    Unused names (RefinedType.renameVar result x y argument) where
  distinct := (List.nodup_cons.mp unused.distinct).2
  notArgument name member isArgument := by
    rw [argumentNames_renameVar] at isArgument
    exact unused.notArgument name (List.mem_cons_of_mem _ member) (by simp [isArgument])
  notFree name member free := by
    refine unused.notFree name (List.mem_cons_of_mem _ member)
      (mem_freeVars_function.mpr (.inr ?_))
    cases argument with
    | function _ _ _ => exact ⟨free, fun same => spares rfl (same ▸ free)⟩
    | scalar base _ _ =>
        exact (mem_freeVars_substitute known free).resolve_left fun same =>
          notName (same ▸ member)

end RefinedType

end Inhabit
