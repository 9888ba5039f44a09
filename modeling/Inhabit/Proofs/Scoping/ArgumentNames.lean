import Inhabit.Proofs.Unification.FreshCopy

/-! The names that a type gives to arguments of functions, and where those of an
applied or copied type come from. -/

namespace Inhabit

namespace Skeleton

mutual

def argumentNames : Skeleton ρ → List String
  | .scalar _ arguments _ => argumentNamesAll arguments
  | .function name argument result =>
      name :: (argumentNames argument ++ argumentNames result)
termination_by structural t => t

def argumentNamesAll : List (Skeleton ρ) → List String
  | [] => []
  | t :: rest => argumentNames t ++ argumentNamesAll rest
termination_by structural ts => ts

end

theorem argumentNamesAll_eq_flatMap (ts : List (Skeleton ρ)) :
    argumentNamesAll ts = ts.flatMap argumentNames := by
  induction ts with
  | nil => rfl
  | cons _ _ induction => exact congrArg (_ ++ ·) induction

@[simp] theorem argumentNames_scalar (base : BaseType) (arguments : List (Skeleton ρ))
    (refinement : ρ) :
    (scalar base arguments refinement).argumentNames =
      arguments.flatMap argumentNames := by
  rw [argumentNames, argumentNamesAll_eq_flatMap]

@[simp] theorem argumentNames_function (name : String) (argument result : Skeleton ρ) :
    (function name argument result).argumentNames =
      name :: (argument.argumentNames ++ result.argumentNames) := rfl

end Skeleton

namespace RefinedType

open Skeleton

@[simp] theorem argumentNames_addRefinement (formula : Formula) (t : RefinedType) :
    (addRefinement formula t).argumentNames = t.argumentNames := by
  cases t with
  | scalar base arguments refinement => simp [addRefinement]
  | function _ _ _ => rfl

@[simp] theorem argumentNames_substitute (substitution : Substitution)
    (t : RefinedType) :
    (substitute substitution t).argumentNames = t.argumentNames := by
  induction t using Skeleton.induction generalizing substitution with
  | scalar base arguments refinement induction =>
      rw [substitute, substituteAll_eq_map, argumentNames_scalar, argumentNames_scalar,
        List.flatMap_map]
      exact List.flatMap_congr fun t member => induction t member substitution
  | function name argument result argumentInduction resultInduction =>
      rw [substitute, argumentNames_function, argumentNames_function, argumentInduction,
        resultInduction]

@[simp] theorem argumentNames_renameVar (t : RefinedType) (old new : String)
    (oldType : RefinedType) :
    (t.renameVar old new oldType).argumentNames = t.argumentNames := by
  cases oldType with
  | scalar base _ _ => exact argumentNames_substitute _ t
  | function _ _ _ => rfl

theorem names_substitute (substitution : Substitution) (t : RefinedType) :
    (parameters (substitute substitution t)).map Prod.fst = t.parameters.map Prod.fst := by
  induction t using Skeleton.arity.induct generalizing substitution with
  | case1 => rfl
  | case2 name argument result induction => exact congrArg (name :: ·) (induction _)

theorem names_renameVar (t : RefinedType) (old new : String) (oldType : RefinedType) :
    (parameters (t.renameVar old new oldType)).map Prod.fst = t.parameters.map Prod.fst := by
  cases oldType with
  | scalar => exact names_substitute _ t
  | function => rfl

theorem arity_renameVar (t : RefinedType) (old new : String) (oldType : RefinedType) :
    arity (t.renameVar old new oldType) = t.arity := by
  have same := congrArg List.length (names_renameVar t old new oldType)
  rwa [List.length_map, List.length_map, length_parameters, length_parameters] at same

theorem mem_argumentNames_instantiate {sorts : SortAssignment}
    {image : String → Option RefinedType} {t : RefinedType} {name : String}
    (member : name ∈ (instantiate sorts image t).argumentNames) :
    name ∈ t.argumentNames ∨
      ∃ typeVar type, image typeVar = some type ∧ name ∈ type.argumentNames := by
  induction t using Skeleton.induction with
  | function parameter argument result argumentInduction resultInduction =>
      rw [instantiate, argumentNames_function, List.mem_cons, List.mem_append] at member
      rw [argumentNames_function, List.mem_cons, List.mem_append]
      rcases member with equal | inArgument | inResult
      · exact .inl (.inl equal)
      · exact (argumentInduction inArgument).imp_left fun own => .inr (.inl own)
      · exact (resultInduction inResult).imp_left fun own => .inr (.inr own)
  | scalar base arguments refinement induction =>
      have inArguments (inside : name ∈ (instantiateAll sorts image arguments).flatMap
          argumentNames) :
          name ∈ (scalar base arguments refinement).argumentNames ∨
            ∃ typeVar type, image typeVar = some type ∧ name ∈ type.argumentNames := by
        rw [instantiateAll_eq_map, List.flatMap_map, List.mem_flatMap] at inside
        rcases inside with ⟨t, inList, inside⟩
        rw [argumentNames_scalar, List.mem_flatMap]
        exact (induction t inList inside).imp_left fun own => ⟨t, inList, own⟩
      cases base with
      | bool | int | data _ => exact inArguments (by simpa [instantiate] using member)
      | typeVar typeVar =>
          cases arguments with
          | cons head rest => exact inArguments (by simpa [instantiate] using member)
          | nil =>
              simp only [instantiate] at member
              cases found : image typeVar with
              | none => simp [found] at member
              | some type =>
                  rw [found] at member
                  exact .inr ⟨typeVar, type, found, by simpa using member⟩

end RefinedType

namespace TypeAssignment

theorem mem_argumentNames_apply {assignment : TypeAssignment} {t : RefinedType}
    {name : String} (member : name ∈ (assignment.apply t).argumentNames) :
    name ∈ t.argumentNames ∨
      ∃ typeVar type, assignment.find? typeVar = some type ∧
        name ∈ type.argumentNames := by
  have resolved : ∀ typeVar type, assignment.resolve typeVar = some type →
      name ∈ type.argumentNames →
        ∃ typeVar type, assignment.find? typeVar = some type ∧
          name ∈ type.argumentNames := by
    refine forall_resolveWithin _ (fun typeVar assigned found image images inside => ?_) _
    rcases RefinedType.mem_argumentNames_instantiate inside with own | others
    · exact ⟨typeVar, assigned, found, own⟩
    · rcases others with ⟨other, type, isImage, inside⟩
      exact images other type isImage inside
  rcases RefinedType.mem_argumentNames_instantiate member with own | others
  · exact .inl own
  · rcases others with ⟨other, type, isImage, inside⟩
    exact .inr (resolved other type isImage inside)

end TypeAssignment

namespace Environment

theorem argumentNames_freshCopy (env : Environment) (supply : NameSupply)
    (t : RefinedType) :
    ((env.freshCopy t).run supply).1.argumentNames = t.argumentNames := by
  induction t using Skeleton.induction generalizing supply with
  | function parameter argument result argumentInduction resultInduction =>
      rw [run_freshCopy_function]
      exact congrArg (parameter :: ·)
        (congrArg₂ (· ++ ·) (argumentInduction supply) (resultInduction _))
  | scalar base arguments refinement induction =>
      cases free : env.freeVar? (.scalar base arguments refinement) with
      | some name =>
          rcases freeVar?_eq_some.mp free with ⟨⟨_, equal⟩, _⟩
          rw [run_freshCopy_of_free env supply free, equal]
          rfl
      | none =>
          have copied : ((env.freshCopies arguments).run supply).1.flatMap
              Skeleton.argumentNames = arguments.flatMap Skeleton.argumentNames := by
            clear free
            induction arguments generalizing supply with
            | nil => rfl
            | cons head rest restInduction =>
                rw [run_freshCopies_cons]
                exact congrArg₂ (· ++ ·) (induction head List.mem_cons_self supply)
                  (restInduction (fun t member =>
                    induction t (List.mem_cons_of_mem head member)) _)
          rw [run_freshCopy_scalar env supply free, Skeleton.argumentNames_scalar,
            Skeleton.argumentNames_scalar]
          exact copied

end Environment

end Inhabit
