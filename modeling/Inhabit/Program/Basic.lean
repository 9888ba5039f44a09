import Inhabit.Typing.Environment

/-! Programs, with a type at every node. -/

namespace Inhabit

structure Case (π : Type) where
  constructorName : String
  binders : List String
  body : π
  deriving Repr, DecidableEq

inductive Program where
  | symbol (name : String) (type : RefinedType)
  | app (function argument : Program) (type : RefinedType)
  | lambda (parameter : String) (body : Program) (type : RefinedType)
  /-- Binds names for recursive calls in its body. -/
  | fix (names : List String) (body : Program) (type : RefinedType)
  | ite (guard : Formula) (thenBranch elseBranch : Program) (type : RefinedType)
  | caseOf (scrutinee : Program) (cases : List (Case Program)) (type : RefinedType)
  deriving Repr

namespace Program

instance : Inhabited Program := ⟨.symbol "" default⟩

def type : Program → RefinedType
  | .symbol _ type | .app _ _ type | .lambda _ _ type | .fix _ _ type
  | .ite _ _ _ type | .caseOf _ _ type => type

def withType (type : RefinedType) : Program → Program
  | .symbol name _ => .symbol name type
  | .app function argument _ => .app function argument type
  | .lambda parameter body _ => .lambda parameter body type
  | .fix names body _ => .fix names body type
  | .ite guard thenBranch elseBranch _ => .ite guard thenBranch elseBranch type
  | .caseOf scrutinee cases _ => .caseOf scrutinee cases type

@[simp] theorem type_withType (type : RefinedType) (program : Program) :
    (program.withType type).type = type := by
  cases program <;> rfl

def isSymbol : Program → Bool
  | .symbol _ _ => true
  | _ => false

def isApplication : Program → Bool
  | .app _ _ _ => true
  | _ => false

def isConditional : Program → Bool
  | .ite _ _ _ _ => true
  | _ => false

def isMatch : Program → Bool
  | .caseOf _ _ _ => true
  | _ => false

mutual

def size : Program → Nat
  | .symbol _ _ => 1
  | .app function argument _ => size function + size argument + 1
  | .lambda _ body _ | .fix _ body _ => size body + 1
  | .ite _ thenBranch elseBranch _ => size thenBranch + size elseBranch + 1
  | .caseOf scrutinee cases _ => size scrutinee + sizeCases cases + 1
termination_by structural program => program

def sizeCases : List (Case Program) → Nat
  | [] => 0
  | ⟨_, _, body⟩ :: rest => size body + sizeCases rest
termination_by structural cases => cases

end

mutual

def mapAnnotations (onType : RefinedType → RefinedType)
    (onGuard : Formula → Formula) : Program → Program
  | .symbol name type => .symbol name (onType type)
  | .app function argument type =>
      .app (mapAnnotations onType onGuard function)
        (mapAnnotations onType onGuard argument) (onType type)
  | .lambda parameter body type =>
      .lambda parameter (mapAnnotations onType onGuard body) (onType type)
  | .fix names body type =>
      .fix names (mapAnnotations onType onGuard body) (onType type)
  | .ite guard thenBranch elseBranch type =>
      .ite (onGuard guard) (mapAnnotations onType onGuard thenBranch)
        (mapAnnotations onType onGuard elseBranch) (onType type)
  | .caseOf scrutinee cases type =>
      .caseOf (mapAnnotations onType onGuard scrutinee)
        (mapAnnotationsCases onType onGuard cases) (onType type)
termination_by structural program => program

def mapAnnotationsCases (onType : RefinedType → RefinedType)
    (onGuard : Formula → Formula) : List (Case Program) → List (Case Program)
  | [] => []
  | ⟨constructorName, binders, body⟩ :: rest =>
      ⟨constructorName, binders, mapAnnotations onType onGuard body⟩ ::
        mapAnnotationsCases onType onGuard rest
termination_by structural cases => cases

end

/-- Instantiate every type and guard, first by an assignment and then by a
solution: assigned types bring unknowns of their own. -/
def finalize (solution : Solution) (assignment : TypeAssignment) :
    Program → Program :=
  mapAnnotations
    (fun type => (assignment.apply type).applySolution solution)
    (fun guard => (assignment.applyFormula guard).applySolution solution)

end Program

structure Goal where
  name : String
  environment : Environment
  schema : Schema

end Inhabit
