import Inhabit.Proofs.Unification.Term
import Inhabit.Unification

/-! The first-order term of a type, and how the operations on types act on it:
those on refinements leave it alone, and an assignment acts as a substitution. -/

namespace Inhabit

namespace Skeleton

theorem induction {motive : Skeleton ρ → Prop}
    (scalar : ∀ base arguments refinement, (∀ t ∈ arguments, motive t) →
      motive (.scalar base arguments refinement))
    (function : ∀ parameter argument result, motive argument → motive result →
      motive (.function parameter argument result)) : ∀ t, motive t
  | .scalar base arguments refinement =>
      scalar base arguments refinement fun t _ => induction scalar function t
  | .function parameter argument result =>
      function parameter argument result (induction scalar function argument)
        (induction scalar function result)

mutual

/-- Erase refinements and the names of arguments. A type variable that carries
arguments is a symbol like any other base type. -/
def toTerm : Skeleton ρ → TypeTerm
  | .scalar (.typeVar name) [] _ => .var name
  | .scalar base arguments _ => .node (.scalar base) (toTerms arguments)
  | .function _ argument result =>
      .node .function [toTerm argument, toTerm result]
termination_by structural t => t

def toTerms : List (Skeleton ρ) → List TypeTerm
  | [] => []
  | t :: rest => toTerm t :: toTerms rest
termination_by structural ts => ts

end

theorem toTerms_eq_map (ts : List (Skeleton ρ)) : toTerms ts = ts.map toTerm := by
  induction ts with
  | nil => rfl
  | cons _ _ induction => exact congrArg (_ :: ·) induction

@[simp] theorem toTerm_typeVar (name : String) (refinement : ρ) :
    (atom (.typeVar name) refinement).toTerm = .var name := rfl

@[simp] theorem toTerm_scalar_cons (base : BaseType) (head : Skeleton ρ)
    (rest : List (Skeleton ρ)) (refinement : ρ) :
    (scalar base (head :: rest) refinement).toTerm =
      .node (.scalar base) (head.toTerm :: rest.map toTerm) := by
  cases base <;> simp [toTerm, toTerms, toTerms_eq_map]

@[simp] theorem toTerm_function (parameter : String)
    (argument result : Skeleton ρ) :
    (function parameter argument result).toTerm =
      .node .function [argument.toTerm, result.toTerm] := rfl

theorem vars_function (parameter : String) (argument result : Skeleton ρ) :
    (function parameter argument result).toTerm.vars =
      argument.toTerm.vars ++ result.toTerm.vars := by
  simp

theorem vars_scalar_cons (base : BaseType) (head : Skeleton ρ)
    (rest : List (Skeleton ρ)) (refinement : ρ) :
    (scalar base (head :: rest) refinement).toTerm.vars =
      (head :: rest).flatMap fun t => t.toTerm.vars := by
  rw [toTerm_scalar_cons, ← List.map_cons, TypeTerm.vars_node, List.flatMap_map]

theorem vars_subset_of_mem_arguments {base : BaseType} {arguments : List (Skeleton ρ)}
    {t : Skeleton ρ} (member : t ∈ arguments) (refinement : ρ) :
    t.toTerm.vars ⊆ (scalar base arguments refinement).toTerm.vars := by
  obtain ⟨head, rest, rfl⟩ := List.exists_cons_of_ne_nil (List.ne_nil_of_mem member)
  rw [vars_scalar_cons]
  exact fun name occurs => List.mem_flatMap.mpr ⟨t, member, occurs⟩

theorem toTerm_scalar_congr {σ : Type} (base : BaseType) {left : List (Skeleton ρ)}
    {right : List (Skeleton σ)} (equal : left.map toTerm = right.map toTerm)
    (first : ρ) (second : σ) :
    (scalar base left first).toTerm = (scalar base right second).toTerm := by
  cases left with
  | nil =>
      rw [List.map_nil, eq_comm, List.map_eq_nil_iff] at equal
      subst equal
      cases base <;> rfl
  | cons head rest =>
      cases right with
      | nil => simp at equal
      | cons otherHead otherRest =>
          rw [toTerm_scalar_cons, toTerm_scalar_cons]
          exact congrArg (TypeTerm.node _) equal

theorem toTerm_scalar_of_ne {base : BaseType} (proper : ∀ name, base ≠ .typeVar name)
    (arguments : List (Skeleton ρ)) (refinement : ρ) :
    (scalar base arguments refinement).toTerm =
      .node (.scalar base) (arguments.map toTerm) := by
  cases arguments with
  | nil =>
      cases base with
      | typeVar name => exact absurd rfl (proper name)
      | bool | int | data _ => rfl
  | cons head rest => exact toTerm_scalar_cons base head rest refinement

theorem base_ne_of_wellKinded {base : BaseType} {head : Skeleton ρ}
    {rest : List (Skeleton ρ)} {refinement : ρ}
    (kinded : (scalar base (head :: rest) refinement).toTerm.WellKinded) :
    ∀ name, base ≠ .typeVar name := by
  rintro name rfl
  rw [toTerm_scalar_cons] at kinded
  exact (TypeTerm.wellKinded_node_iff.mp kinded).1 name rfl

theorem wellKinded_of_mem_arguments {base : BaseType} {arguments : List (Skeleton ρ)}
    {refinement : ρ} (kinded : (scalar base arguments refinement).toTerm.WellKinded)
    {t : Skeleton ρ} (member : t ∈ arguments) : t.toTerm.WellKinded := by
  obtain ⟨head, rest, rfl⟩ := List.exists_cons_of_ne_nil (List.ne_nil_of_mem member)
  rw [toTerm_scalar_cons] at kinded
  exact (TypeTerm.wellKinded_node_iff.mp kinded).2 _
    (List.mem_map_of_mem (f := toTerm) member)

theorem wellKinded_function {parameter : String} {argument result : Skeleton ρ}
    (kinded : (function parameter argument result).toTerm.WellKinded) :
    argument.toTerm.WellKinded ∧ result.toTerm.WellKinded := by
  obtain ⟨_, inner⟩ := TypeTerm.wellKinded_node_iff.mp kinded
  exact ⟨inner _ (by simp), inner _ (by simp)⟩

theorem typeVarOccurrencesAll_eq_flatMap (ts : List (Skeleton ρ)) :
    typeVarOccurrencesAll ts = ts.flatMap typeVarOccurrences := by
  induction ts with
  | nil => rfl
  | cons _ _ induction => exact congrArg (_ ++ ·) induction

theorem vars_subset_typeVarOccurrences (t : Skeleton ρ) :
    t.toTerm.vars ⊆ t.typeVarOccurrences := by
  induction t using Skeleton.induction with
  | function parameter argument result argumentInduction resultInduction =>
      rw [vars_function, typeVarOccurrences]
      exact List.append_subset.mpr
        ⟨List.subset_append_of_subset_left _ argumentInduction,
          List.subset_append_of_subset_right _ resultInduction⟩
  | scalar base arguments refinement induction =>
      cases arguments with
      | nil =>
          cases base with
          | typeVar name => exact List.Subset.refl _
          | bool | int | data _ => exact List.nil_subset _
      | cons head rest =>
          rw [vars_scalar_cons]
          have inside : ((head :: rest).flatMap fun t => t.toTerm.vars) ⊆
              typeVarOccurrencesAll (head :: rest) := by
            rw [typeVarOccurrencesAll_eq_flatMap]
            intro name occurs
            rcases List.mem_flatMap.mp occurs with ⟨t, member, occurs⟩
            exact List.mem_flatMap.mpr ⟨t, member, induction t member occurs⟩
          cases base with
          | typeVar name => exact List.subset_cons_of_subset name inside
          | bool | int | data _ => exact inside

theorem typeVarOccurrences_eq_vars {t : Skeleton ρ} (kinded : t.toTerm.WellKinded) :
    t.typeVarOccurrences = t.toTerm.vars := by
  induction t using Skeleton.induction with
  | function parameter argument result argumentInduction resultInduction =>
      obtain ⟨first, second⟩ := wellKinded_function kinded
      simp [typeVarOccurrences, argumentInduction first, resultInduction second]
  | scalar base arguments refinement induction =>
      by_cases isVar : ∃ name, base = .typeVar name
      · obtain ⟨name, rfl⟩ := isVar
        cases arguments with
        | nil => rfl
        | cons head rest => exact absurd rfl (base_ne_of_wellKinded kinded name)
      · have proper : ∀ name, base ≠ .typeVar name := fun name equal =>
          isVar ⟨name, equal⟩
        rw [toTerm_scalar_of_ne proper] at kinded ⊢
        obtain ⟨_, inner⟩ := TypeTerm.wellKinded_node_iff.mp kinded
        have occurrences : (scalar base arguments refinement).typeVarOccurrences =
            typeVarOccurrencesAll arguments := by
          cases base with
          | typeVar name => exact absurd rfl (proper name)
          | bool | int | data _ => rfl
        rw [occurrences, typeVarOccurrencesAll_eq_flatMap, TypeTerm.vars_node,
          List.flatMap_map]
        exact List.flatMap_congr fun t member =>
          induction t member (inner _ (List.mem_map_of_mem member))

end Skeleton

namespace RefinedType

open Skeleton

theorem substituteAll_eq_map (substitution : Substitution) (ts : List RefinedType) :
    substituteAll substitution ts = ts.map (substitute substitution) := by
  induction ts with
  | nil => rfl
  | cons _ _ induction => exact congrArg (_ :: ·) induction

theorem instantiateAll_eq_map (sorts : SortAssignment)
    (image : String → Option RefinedType) (ts : List RefinedType) :
    instantiateAll sorts image ts = ts.map (instantiate sorts image) := by
  induction ts with
  | nil => rfl
  | cons _ _ induction => exact congrArg (_ :: ·) induction

@[simp] theorem toTerm_addRefinement (formula : Formula) (t : RefinedType) :
    (addRefinement formula t).toTerm = t.toTerm := by
  cases t with
  | scalar base arguments refinement => exact toTerm_scalar_congr base rfl _ _
  | function _ _ _ => rfl

@[simp] theorem toTerm_substitute (substitution : Substitution) (t : RefinedType) :
    (substitute substitution t).toTerm = t.toTerm := by
  induction t using Skeleton.induction generalizing substitution with
  | scalar base arguments refinement induction =>
      rw [substitute, substituteAll_eq_map]
      refine toTerm_scalar_congr base ?_ _ _
      rw [List.map_map]
      exact List.map_congr_left fun t member => induction t member substitution
  | function parameter argument result argumentInduction resultInduction =>
      rw [substitute, toTerm_function, toTerm_function, argumentInduction,
        resultInduction]

@[simp] theorem toTerm_renameVar (t : RefinedType) (old new : String)
    (oldType : RefinedType) : (t.renameVar old new oldType).toTerm = t.toTerm := by
  cases oldType with
  | scalar base _ _ => exact toTerm_substitute _ t
  | function _ _ _ => rfl

def imageTerm (image : String → Option RefinedType) (name : String) : TypeTerm :=
  ((image name).map toTerm).getD (.var name)

theorem instantiate_scalar_cons (sorts : SortAssignment)
    (image : String → Option RefinedType) (base : BaseType) (head : RefinedType)
    (rest : List RefinedType) (refinement : Formula) :
    instantiate sorts image (.scalar base (head :: rest) refinement) =
      .scalar base ((head :: rest).map (instantiate sorts image))
        (refinement.instantiateSorts sorts) := by
  rw [← instantiateAll_eq_map]
  cases base <;> rfl

theorem toTerm_instantiate (sorts : SortAssignment)
    (image : String → Option RefinedType) (t : RefinedType) :
    (instantiate sorts image t).toTerm = t.toTerm.substitute (imageTerm image) := by
  induction t using Skeleton.induction with
  | scalar base arguments refinement induction =>
      cases arguments with
      | nil =>
          cases base with
          | typeVar name =>
              simp only [instantiate, toTerm_typeVar, TypeTerm.substitute_var,
                imageTerm]
              cases image name with
              | none => rfl
              | some t => simp
          | bool | int | data _ => simp [instantiate, instantiateAll, toTerm, toTerms]
      | cons head rest =>
          rw [instantiate_scalar_cons, List.map_cons, toTerm_scalar_cons,
            toTerm_scalar_cons, TypeTerm.substitute_node, List.map_cons, List.map_map,
            List.map_map]
          refine congrArg (TypeTerm.node _) (congrArg₂ List.cons ?_ ?_)
          · exact induction head (by simp)
          · exact List.map_congr_left fun t member =>
              induction t (List.mem_cons_of_mem head member)
  | function parameter argument result argumentInduction resultInduction =>
      simp [instantiate, argumentInduction, resultInduction]

theorem instantiate_congr {sorts : SortAssignment}
    {first second : String → Option RefinedType} {t : RefinedType}
    (agree : ∀ name ∈ t.toTerm.vars, first name = second name) :
    instantiate sorts first t = instantiate sorts second t := by
  induction t using Skeleton.induction with
  | scalar base arguments refinement induction =>
      cases arguments with
      | nil =>
          cases base with
          | typeVar name =>
              rw [instantiate, instantiate, agree name (List.mem_singleton_self name)]
          | bool | int | data _ => rfl
      | cons head rest =>
          rw [instantiate_scalar_cons, instantiate_scalar_cons]
          refine congrArg (Skeleton.scalar base · _) (List.map_congr_left fun t member => ?_)
          refine induction t member fun name occurs => agree name ?_
          rw [vars_scalar_cons]
          exact List.mem_flatMap.mpr ⟨t, member, occurs⟩
  | function parameter argument result argumentInduction resultInduction =>
      rw [vars_function] at agree
      rw [instantiate, instantiate,
        argumentInduction fun name occurs => agree name (List.mem_append_left _ occurs),
        resultInduction fun name occurs => agree name (List.mem_append_right _ occurs)]

end RefinedType

namespace Environment

theorem freeVar?_eq_some {env : Environment} {t : RefinedType} {name : String} :
    env.freeVar? t = some name ↔
      (∃ refinement, t = .atom (.typeVar name) refinement) ∧
        env.isBound name = false := by
  constructor
  · intro free
    unfold freeVar? at free
    split at free
    next other refinement =>
      by_cases bound : env.isBound other
      · simp [bound] at free
      · rw [if_neg bound, Option.some_inj] at free
        subst free
        exact ⟨⟨refinement, rfl⟩, by simpa using bound⟩
    next => cases free
  · rintro ⟨⟨refinement, rfl⟩, free⟩
    simp [freeVar?, free]

theorem isBound_of_freeVar?_eq_none {env : Environment} {t : RefinedType}
    {name : String} (rigid : env.freeVar? t = none) (same : t.toTerm = .var name) :
    env.isBound name := by
  cases t with
  | function _ _ _ => cases same
  | scalar base arguments refinement =>
      cases arguments with
      | cons head rest => simp at same
      | nil =>
          cases base with
          | typeVar other =>
              rw [Skeleton.toTerm_typeVar, TypeTerm.var.injEq] at same
              subst same
              by_cases bound : env.isBound other
              · exact bound
              · simp [freeVar?, bound] at rigid
          | bool | int | data _ => cases same

end Environment

end Inhabit
