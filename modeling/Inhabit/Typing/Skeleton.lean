import Inhabit.Collections.SortedSet
import Inhabit.Formula.Basic

/-! Types over an arbitrary kind of refinement. A scalar is a base type with its
datatype arguments and a refinement; a function names its argument, and the
result may speak of that name. -/

namespace Inhabit

inductive BaseType where
  | bool
  | int
  | data (name : String)
  | typeVar (name : String)
  deriving DecidableEq, Repr, Inhabited

def BaseType.sort : BaseType → LogicSort
  | .bool => .bool
  | .int => .int
  | .data name => .data name
  | .typeVar name => .var name

inductive Skeleton (ρ : Type) where
  | scalar (base : BaseType) (arguments : List (Skeleton ρ)) (refinement : ρ)
  | function (parameter : String) (argument result : Skeleton ρ)
  deriving Repr

abbrev Shape := Skeleton Unit

namespace Skeleton

instance [Inhabited ρ] : Inhabited (Skeleton ρ) := ⟨.scalar .bool [] default⟩

/-! ## Equality -/

mutual

private def decideEq [DecidableEq ρ] : (s t : Skeleton ρ) → Decidable (s = t)
  | .scalar b ss r, .scalar c ts q =>
      if base : b = c then
        if refinement : r = q then
          match decideEqs ss ts with
          | isTrue same => isTrue (by rw [base, refinement, same])
          | isFalse different => isFalse (by simp_all)
        else isFalse (by simp_all)
      else isFalse (by simp_all)
  | .function x s₁ s₂, .function y t₁ t₂ =>
      if parameter : x = y then
        match decideEq s₁ t₁, decideEq s₂ t₂ with
        | isTrue argument, isTrue result =>
            isTrue (by rw [parameter, argument, result])
        | isFalse different, _ => isFalse (by simp_all)
        | _, isFalse different => isFalse (by simp_all)
      else isFalse (by simp_all)
  | .scalar _ _ _, .function _ _ _ => isFalse nofun
  | .function _ _ _, .scalar _ _ _ => isFalse nofun
termination_by structural s => s

private def decideEqs [DecidableEq ρ] :
    (ss ts : List (Skeleton ρ)) → Decidable (ss = ts)
  | [], [] => isTrue rfl
  | s :: ss, t :: ts =>
      match decideEq s t, decideEqs ss ts with
      | isTrue head, isTrue tail => isTrue (by rw [head, tail])
      | isFalse different, _ => isFalse (by simp_all)
      | _, isFalse different => isFalse (by simp_all)
  | [], _ :: _ => isFalse nofun
  | _ :: _, [] => isFalse nofun
termination_by structural ss => ss

end

instance [DecidableEq ρ] : DecidableEq (Skeleton ρ) := decideEq

/-! ## Structure -/

def isFunction : Skeleton ρ → Bool
  | .function _ _ _ => true
  | .scalar _ _ _ => false

def isScalar : Skeleton ρ → Bool
  | .scalar _ _ _ => true
  | .function _ _ _ => false

def base? : Skeleton ρ → Option BaseType
  | .scalar base _ _ => some base
  | .function _ _ _ => none

def refinement? : Skeleton ρ → Option ρ
  | .scalar _ _ refinement => some refinement
  | .function _ _ _ => none

def arity : Skeleton ρ → Nat
  | .scalar _ _ _ => 0
  | .function _ _ result => result.arity + 1

def lastType : Skeleton ρ → Skeleton ρ
  | .function _ _ result => result.lastType
  | t => t

def parameters : Skeleton ρ → List (String × Skeleton ρ)
  | .function name argument result => (name, argument) :: result.parameters
  | .scalar _ _ _ => []

theorem length_parameters (t : Skeleton ρ) : t.parameters.length = t.arity := by
  induction t using arity.induct <;> simp_all [parameters, arity]

mutual

def typeVarOccurrences : Skeleton ρ → List String
  | .scalar (.typeVar name) arguments _ =>
      name :: typeVarOccurrencesAll arguments
  | .scalar _ arguments _ => typeVarOccurrencesAll arguments
  | .function _ argument result =>
      typeVarOccurrences argument ++ typeVarOccurrences result
termination_by structural t => t

def typeVarOccurrencesAll : List (Skeleton ρ) → List String
  | [] => []
  | t :: rest => typeVarOccurrences t ++ typeVarOccurrencesAll rest
termination_by structural ts => ts

end

def typeVars (t : Skeleton ρ) : SortedSet String := .ofList t.typeVarOccurrences

mutual

def mapRefinements (transform : ρ → σ) : Skeleton ρ → Skeleton σ
  | .scalar base arguments refinement =>
      .scalar base (mapRefinementsAll transform arguments) (transform refinement)
  | .function name argument result =>
      .function name (mapRefinements transform argument)
        (mapRefinements transform result)
termination_by structural t => t

def mapRefinementsAll (transform : ρ → σ) :
    List (Skeleton ρ) → List (Skeleton σ)
  | [] => []
  | t :: rest => mapRefinements transform t :: mapRefinementsAll transform rest
termination_by structural ts => ts

end

def shape (t : Skeleton ρ) : Shape := t.mapRefinements fun _ => ()

@[match_pattern, reducible] def atom (base : BaseType) (refinement : ρ) :
    Skeleton ρ :=
  .scalar base [] refinement

example :
    (Skeleton.function "x" (.atom .int ()) (.atom (.typeVar "a") ())).arity = 1 :=
  rfl

end Skeleton

end Inhabit
