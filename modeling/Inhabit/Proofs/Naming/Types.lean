import Inhabit.Proofs.Naming.Formulas
import Inhabit.Proofs.Scoping.ArgumentNames
import Inhabit.Proofs.Unknowns.Types

/-! Free variables of types, their renaming, and when a variable can take the place
of another without being captured. -/

namespace Inhabit

namespace RefinedType

open Skeleton

/-! ## Free variables -/

mutual

/-- The variables that refinements speak of, without the arguments that are in scope
there. -/
def freeVars : RefinedType → List String
  | .scalar _ arguments refinement =>
      refinement.variableOccurrences ++ freeVarsAll arguments
  | .function name argument result =>
      freeVars argument ++ (freeVars result).filter (· ≠ name)
termination_by structural t => t

def freeVarsAll : List RefinedType → List String
  | [] => []
  | t :: rest => freeVars t ++ freeVarsAll rest
termination_by structural ts => ts

end

theorem freeVarsAll_eq_flatMap (ts : List RefinedType) :
    freeVarsAll ts = ts.flatMap freeVars := by
  induction ts with
  | nil => rfl
  | cons _ _ induction => exact congrArg (_ ++ ·) induction

theorem mem_freeVars_scalar {base : BaseType} {arguments : List RefinedType}
    {refinement : Formula} {name : String} :
    name ∈ freeVars (.scalar base arguments refinement) ↔
      name ∈ refinement.variableOccurrences ∨ ∃ t ∈ arguments, name ∈ t.freeVars := by
  rw [freeVars, List.mem_append, freeVarsAll_eq_flatMap, List.mem_flatMap]

theorem mem_freeVars_function {parameter : String} {argument result : RefinedType}
    {name : String} :
    name ∈ freeVars (.function parameter argument result) ↔
      name ∈ argument.freeVars ∨ (name ∈ result.freeVars ∧ name ≠ parameter) := by
  simp [freeVars]

/-! ## Renaming -/

mutual

def rename (old new : String) : RefinedType → RefinedType
  | .scalar base arguments refinement =>
      .scalar base (renameAll old new arguments) (refinement.rename old new)
  | .function name argument result =>
      .function name (rename old new argument)
        (if name = old then result else rename old new result)
termination_by structural t => t

def renameAll (old new : String) : List RefinedType → List RefinedType
  | [] => []
  | t :: rest => rename old new t :: renameAll old new rest
termination_by structural ts => ts

end

theorem renameAll_eq_map (old new : String) (ts : List RefinedType) :
    renameAll old new ts = ts.map (rename old new) := by
  induction ts with
  | nil => rfl
  | cons _ _ induction => exact congrArg (_ :: ·) induction

@[simp] theorem rename_scalar (old new : String) (base : BaseType)
    (arguments : List RefinedType) (refinement : Formula) :
    rename old new (.scalar base arguments refinement) =
      .scalar base (arguments.map (rename old new)) (refinement.rename old new) := by
  rw [rename, renameAll_eq_map]

@[simp] theorem rename_function (old new name : String) (argument result : RefinedType) :
    rename old new (.function name argument result) =
      .function name (argument.rename old new)
        (if name = old then result else result.rename old new) := rfl

theorem isScalar_rename (old new : String) (t : RefinedType) :
    (t.rename old new).isScalar = t.isScalar := by
  cases t <;> rfl

/-! ## Replacing a variable -/

theorem erase_singleton (name x : String) (replacement : Formula) :
    Entries.erase name [(x, replacement)] =
      if name = x then [] else [(x, replacement)] := by
  by_cases same : name = x
  · simp [Entries.erase, same]
  · have different : compare name x ≠ .eq := fun equal =>
      same (Std.LawfulEqOrd.eq_of_compare equal)
    simp [Entries.erase, same, different]

theorem substitute_scalar (substitution : Substitution) (base : BaseType)
    (arguments : List RefinedType) (refinement : Formula) :
    substitute substitution (.scalar base arguments refinement) =
      .scalar base (arguments.map (substitute substitution))
        (refinement.substitute substitution) := by
  rw [substitute, substituteAll_eq_map]

theorem substitute_nil {t : RefinedType} (known : t.Known) : t.substitute [] = t := by
  induction t using Skeleton.induction with
  | scalar base arguments refinement induction =>
      rcases known_scalar.mp known with ⟨refinementKnown, argumentsKnown⟩
      have same : arguments.map (substitute []) = arguments :=
        (List.map_congr_left fun t member =>
          induction t member (argumentsKnown t member)).trans (List.map_id _)
      rw [substitute_scalar, same, Formula.substitute_eq_mapVars refinementKnown]
      exact congrArg _ refinement.mapVars_var
  | function name argument result first second =>
      rcases known_function.mp known with ⟨argumentKnown, resultKnown⟩
      rw [substitute, first argumentKnown]
      exact congrArg _ (second resultKnown)

theorem substitute_function {parameter x : String} {replacement : Formula}
    {argument result : RefinedType} (known : result.Known) :
    substitute [(x, replacement)] (.function parameter argument result) =
      .function parameter (argument.substitute [(x, replacement)])
        (if parameter = x then result else result.substitute [(x, replacement)]) := by
  rw [substitute, erase_singleton]
  split
  · rw [substitute_nil known]
  · rfl

section Replace

variable {x y old new : String} {sort : LogicSort} {replacement : Formula}

theorem rename_of_not_mem {t : RefinedType} (absent : old ∉ t.freeVars) :
    t.rename old new = t := by
  induction t using Skeleton.induction with
  | scalar base arguments refinement induction =>
      rw [mem_freeVars_scalar, not_or] at absent
      have same : arguments.map (rename old new) = arguments :=
        (List.map_congr_left fun t member => induction t member fun inside =>
          absent.2 ⟨t, member, inside⟩).trans (List.map_id _)
      rw [rename_scalar, same, Formula.rename_of_not_mem absent.1]
  | function name argument result first second =>
      rw [mem_freeVars_function, not_or] at absent
      rw [rename_function, first absent.1]
      split
      · rfl
      · rename_i different
        rw [second fun inside => absent.2 ⟨inside, Ne.symm different⟩]

@[simp] theorem rename_self (t : RefinedType) : t.rename old old = t := by
  induction t using Skeleton.induction with
  | scalar base arguments refinement induction =>
      have same : arguments.map (rename old old) = arguments :=
        (List.map_congr_left induction).trans (List.map_id _)
      rw [rename_scalar, same, Formula.rename_self]
  | function name argument result first second =>
      rw [rename_function, first, second, ite_self]

theorem Known.rename {t : RefinedType} (known : t.Known) : (t.rename old new).Known := by
  induction t using Skeleton.induction with
  | scalar base arguments refinement induction =>
      rcases known_scalar.mp known with ⟨refinementKnown, argumentsKnown⟩
      rw [rename_scalar, known_scalar]
      refine ⟨refinementKnown.rename, ?_⟩
      intro t member
      rcases List.mem_map.mp member with ⟨inner, inside, rfl⟩
      exact induction inner inside (argumentsKnown inner inside)
  | function name argument result first second =>
      rcases known_function.mp known with ⟨argumentKnown, resultKnown⟩
      rw [rename_function, known_function]
      refine ⟨first argumentKnown, ?_⟩
      split
      · exact resultKnown
      · exact second resultKnown

theorem Known.substitute {t : RefinedType} (known : t.Known) (sort : LogicSort) :
    (t.substitute [(x, .var sort y)]).Known := by
  induction t using Skeleton.induction with
  | scalar base arguments refinement induction =>
      rcases known_scalar.mp known with ⟨refinementKnown, argumentsKnown⟩
      rw [substitute_scalar, known_scalar]
      refine ⟨refinementKnown.substitute sort, ?_⟩
      intro t member
      rcases List.mem_map.mp member with ⟨inner, inside, rfl⟩
      exact induction inner inside (argumentsKnown inner inside)
  | function name argument result first second =>
      rcases known_function.mp known with ⟨argumentKnown, resultKnown⟩
      rw [substitute_function resultKnown, known_function]
      refine ⟨first argumentKnown, ?_⟩
      split
      · exact resultKnown
      · exact second resultKnown

theorem substitute_of_not_mem {t : RefinedType} (known : t.Known)
    (absent : x ∉ t.freeVars) : t.substitute [(x, replacement)] = t := by
  induction t using Skeleton.induction with
  | scalar base arguments refinement induction =>
      rcases known_scalar.mp known with ⟨refinementKnown, argumentsKnown⟩
      rw [mem_freeVars_scalar, not_or] at absent
      have same : arguments.map (RefinedType.substitute [(x, replacement)]) = arguments :=
        (List.map_congr_left fun t member => induction t member (argumentsKnown t member)
          fun inside => absent.2 ⟨t, member, inside⟩).trans (List.map_id _)
      rw [substitute_scalar, same, Formula.substitute_of_not_mem refinementKnown absent.1]
  | function name argument result first second =>
      rcases known_function.mp known with ⟨argumentKnown, resultKnown⟩
      rw [mem_freeVars_function, not_or] at absent
      rw [substitute_function resultKnown, first argumentKnown absent.1]
      split
      · rfl
      · rename_i different
        rw [second resultKnown fun inside => absent.2 ⟨inside, Ne.symm different⟩]

theorem mem_freeVars_rename {t : RefinedType} (known : t.Known) {name : String}
    (member : name ∈ (t.rename old new).freeVars) :
    name = new ∨ (name ∈ t.freeVars ∧ name ≠ old) := by
  induction t using Skeleton.induction with
  | scalar base arguments refinement induction =>
      rcases known_scalar.mp known with ⟨refinementKnown, argumentsKnown⟩
      rw [rename_scalar, mem_freeVars_scalar, Formula.variableOccurrences_rename refinementKnown,
        List.mem_map] at member
      rw [mem_freeVars_scalar]
      rcases member with ⟨other, occurs, equal⟩ | ⟨renamed, isRenamed, inside⟩
      · split at equal
        · exact .inl equal.symm
        · rename_i different
          exact .inr ⟨.inl (equal ▸ occurs), equal ▸ different⟩
      · rcases List.mem_map.mp isRenamed with ⟨t, isArgument, rfl⟩
        exact (induction t isArgument (argumentsKnown t isArgument) inside).imp_right
          fun free => ⟨.inr ⟨t, isArgument, free.1⟩, free.2⟩
  | function parameter argument result first second =>
      rcases known_function.mp known with ⟨argumentKnown, resultKnown⟩
      rw [rename_function, mem_freeVars_function] at member
      rw [mem_freeVars_function]
      rcases member with inArgument | ⟨inResult, notParameter⟩
      · exact (first argumentKnown inArgument).imp_right fun free => ⟨.inl free.1, free.2⟩
      · split at inResult
        · rename_i isOld
          exact .inr ⟨.inr ⟨inResult, notParameter⟩, isOld ▸ notParameter⟩
        · exact (second resultKnown inResult).imp_right
            fun free => ⟨.inr ⟨free.1, notParameter⟩, free.2⟩

theorem freeVars_substitute_var {t : RefinedType} (known : t.Known) :
    (t.substitute [(x, .var sort y)]).freeVars = (t.rename x y).freeVars := by
  induction t using Skeleton.induction with
  | scalar base arguments refinement induction =>
      rcases known_scalar.mp known with ⟨refinementKnown, argumentsKnown⟩
      rw [substitute_scalar, rename_scalar, freeVars, freeVars, freeVarsAll_eq_flatMap,
        freeVarsAll_eq_flatMap, List.flatMap_map, List.flatMap_map,
        Formula.variableOccurrences_substitute refinementKnown,
        Formula.variableOccurrences_rename refinementKnown]
      exact congrArg (_ ++ ·) (List.flatMap_congr fun t member =>
        induction t member (argumentsKnown t member))
  | function parameter argument result first second =>
      rcases known_function.mp known with ⟨argumentKnown, resultKnown⟩
      rw [substitute_function resultKnown, rename_function, freeVars, freeVars,
        first argumentKnown]
      split
      · rfl
      · rw [second resultKnown]

theorem mem_freeVars_substitute {t : RefinedType} (known : t.Known) {name : String}
    (member : name ∈ (t.substitute [(x, .var sort y)]).freeVars) :
    name = y ∨ (name ∈ t.freeVars ∧ name ≠ x) :=
  mem_freeVars_rename known (freeVars_substitute_var known ▸ member)

theorem substitute_rename {t : RefinedType} (known : t.Known) (notFree : new ∉ t.freeVars)
    (notArgument : new ∉ t.argumentNames) :
    (t.rename x new).substitute [(new, replacement)] = t.substitute [(x, replacement)] := by
  induction t using Skeleton.induction with
  | scalar base arguments refinement induction =>
      rcases known_scalar.mp known with ⟨refinementKnown, argumentsKnown⟩
      rw [mem_freeVars_scalar, not_or] at notFree
      rw [argumentNames_scalar, List.mem_flatMap] at notArgument
      rw [rename_scalar, substitute_scalar, substitute_scalar, List.map_map,
        Formula.substitute_rename refinementKnown notFree.1]
      congr 1
      apply List.map_congr_left
      intro t member
      exact induction t member (argumentsKnown t member)
        (fun inside => notFree.2 ⟨t, member, inside⟩)
        fun inside => notArgument ⟨t, member, inside⟩
  | function parameter argument result first second =>
      rcases known_function.mp known with ⟨argumentKnown, resultKnown⟩
      rw [mem_freeVars_function, not_or] at notFree
      rw [argumentNames_function, List.mem_cons, List.mem_append, not_or, not_or] at notArgument
      rcases notArgument with ⟨notParameter, notInArgument, notInResult⟩
      have notFreeInResult : new ∉ freeVars result := fun inside =>
        notFree.2 ⟨inside, notParameter⟩
      have keeps : parameter ≠ new := Ne.symm notParameter
      rw [rename_function, substitute_function resultKnown]
      by_cases same : parameter = x
      · rw [if_pos same, if_pos same, substitute_function resultKnown, if_neg keeps,
          first argumentKnown notFree.1 notInArgument,
          substitute_of_not_mem resultKnown notFreeInResult]
      · rw [if_neg same, if_neg same, substitute_function resultKnown.rename, if_neg keeps,
          first argumentKnown notFree.1 notInArgument,
          second resultKnown notFreeInResult notInResult]

theorem substitute_rename_comm {t : RefinedType} (known : t.Known) (notOld : x ≠ old)
    (notNew : x ≠ new) (otherNotOld : y ≠ old) :
    (t.rename old new).substitute [(x, .var sort y)] =
      (t.substitute [(x, .var sort y)]).rename old new := by
  induction t using Skeleton.induction with
  | scalar base arguments refinement induction =>
      rcases known_scalar.mp known with ⟨refinementKnown, argumentsKnown⟩
      rw [rename_scalar, substitute_scalar, substitute_scalar, rename_scalar, List.map_map,
        List.map_map, Formula.substitute_rename_comm refinementKnown notOld notNew otherNotOld]
      congr 1
      apply List.map_congr_left
      intro t member
      exact induction t member (argumentsKnown t member)
  | function parameter argument result first second =>
      rcases known_function.mp known with ⟨argumentKnown, resultKnown⟩
      rw [rename_function, substitute_function resultKnown, rename_function,
        substitute_function (by split <;> simp [resultKnown, resultKnown.rename]),
        first argumentKnown]
      congr 1
      by_cases isOld : parameter = old
      · rw [if_pos isOld, if_pos isOld]
      · rw [if_neg isOld, if_neg isOld]
        split
        · rfl
        · exact second resultKnown

end Replace

/-! ## Capture -/

mutual

/-- Variable `y` can take the place of `x`: no argument that is called `y` has `x` in
its scope. -/
def Substitutable (x y : String) : RefinedType → Prop
  | .scalar _ arguments _ => SubstitutableAll x y arguments
  | .function name argument result =>
      Substitutable x y argument ∧
        (name = x ∨ ((name = y → x ∉ freeVars result) ∧ Substitutable x y result))
termination_by structural t => t

def SubstitutableAll (x y : String) : List RefinedType → Prop
  | [] => True
  | t :: rest => Substitutable x y t ∧ SubstitutableAll x y rest
termination_by structural ts => ts

end

section Capture

variable {x y new : String} {sort : LogicSort}

theorem substitutable_scalar {base : BaseType} {arguments : List RefinedType}
    {refinement : Formula} :
    Substitutable x y (.scalar base arguments refinement) ↔
      ∀ t ∈ arguments, Substitutable x y t := by
  rw [Substitutable]
  induction arguments with
  | nil => simp [SubstitutableAll]
  | cons head rest induction => rw [SubstitutableAll, induction, List.forall_mem_cons]

theorem rename_substitute {t : RefinedType} (known : t.Known)
    (apart : t.Substitutable x y) (absent : y = x ∨ y ∉ t.freeVars) :
    (t.substitute [(x, .var sort y)]).rename y new = t.substitute [(x, .var sort new)] := by
  induction t using Skeleton.induction with
  | scalar base arguments refinement induction =>
      rcases known_scalar.mp known with ⟨refinementKnown, argumentsKnown⟩
      rw [substitutable_scalar] at apart
      rw [mem_freeVars_scalar, not_or] at absent
      rw [substitute_scalar, substitute_scalar, rename_scalar, List.map_map,
        Formula.rename_substitute refinementKnown (absent.imp_right And.left)]
      congr 1
      apply List.map_congr_left
      intro t member
      exact induction t member (argumentsKnown t member) (apart t member)
        (absent.imp_right fun absent inside => absent.2 ⟨t, member, inside⟩)
  | function parameter argument result first second =>
      rcases known_function.mp known with ⟨argumentKnown, resultKnown⟩
      rcases apart with ⟨inArgument, inResult⟩
      rw [mem_freeVars_function, not_or] at absent
      rw [substitute_function resultKnown, substitute_function resultKnown, rename_function,
        first argumentKnown inArgument (absent.imp_right And.left)]
      congr 1
      by_cases same : parameter = x
      · rw [if_pos same, if_pos same]
        split
        · rfl
        · rename_i different
          apply rename_of_not_mem
          intro inside
          rcases absent with equal | absent
          · exact different (same.trans equal.symm)
          · exact absent.2 ⟨inside, Ne.symm different⟩
      · rw [if_neg same, if_neg same]
        rcases inResult with equal | ⟨noCapture, inResult⟩
        · exact absurd equal same
        · split
          · rename_i isOther
            have notFree := noCapture isOther
            rw [substitute_of_not_mem resultKnown notFree,
              substitute_of_not_mem resultKnown notFree]
          · rename_i different
            exact second resultKnown inResult (absent.imp_right fun absent inside =>
              absent.2 ⟨inside, Ne.symm different⟩)

end Capture

end RefinedType

end Inhabit
