import Inhabit.Proofs.Naming.Arguments

/-! Comparisons of functions, one of whose arguments is renamed. As long as nothing is
captured, what both comparisons come down to differs by a name. -/

namespace Inhabit

open Skeleton RefinedType

/-! ## Capture -/

structure Comparison where
  env : Environment
  x : String
  leftArgument : RefinedType
  leftResult : RefinedType
  y : String
  rightArgument : RefinedType
  rightResult : RefinedType

namespace Comparison

def constraint (comparison : Comparison) : Constraint :=
  .subtype comparison.env
    (.function comparison.x comparison.leftArgument comparison.leftResult)
    (.function comparison.y comparison.rightArgument comparison.rightResult)

def arguments (comparison : Comparison) : Constraint :=
  .subtype comparison.env comparison.rightArgument comparison.leftArgument

def results (comparison : Comparison) : Constraint :=
  .subtype (comparison.env.addVariable comparison.y comparison.rightArgument)
    (comparison.leftResult.renameVar comparison.x comparison.y comparison.leftArgument)
    comparison.rightResult

def plainResults (comparison : Comparison) : Constraint :=
  .subtype comparison.env comparison.leftResult comparison.rightResult

/-- Comparing the functions captures nothing. The right argument, under whose name the
results are compared, is new to the scope, to its own type and, unless it has the left
name already, to the left result, where it can take the place of the left argument.
Nothing speaks of arguments that are functions. -/
structure Apart (comparison : Comparison) : Prop where
  new : comparison.leftArgument.isScalar = true → comparison.env.New comparison.y
  proper : comparison.leftArgument.isScalar = true → comparison.y ≠ valueName
  argument : comparison.leftArgument.isScalar = true →
    comparison.y ∉ comparison.rightArgument.freeVars
  result : comparison.leftArgument.isScalar = true →
    comparison.y = comparison.x ∨ comparison.y ∉ comparison.leftResult.freeVars
  substitutable : comparison.leftArgument.isScalar = true →
    comparison.leftResult.Substitutable comparison.x comparison.y
  leftSilent : comparison.leftArgument.isScalar = false →
    comparison.x ∉ comparison.leftResult.freeVars
  rightSilent : comparison.leftArgument.isScalar = false →
    comparison.y ∉ comparison.rightResult.freeVars

theorem rewriting (comparison : Comparison) :
    comparison.constraint.rewriting ∅ = .decompose [comparison.arguments,
      if comparison.leftArgument.isScalar then comparison.results
      else comparison.plainResults] := rfl

end Comparison

namespace Constraint

def HasPart (constraint part : Constraint) : Prop :=
  ∃ parts, constraint.rewriting ∅ = .decompose parts ∧ part ∈ parts

/-- No comparison of functions that decomposing leads to captures anything. -/
def CaptureFree (constraint : Constraint) : Prop :=
  ∀ comparison : Comparison,
    Relation.ReflTransGen HasPart constraint comparison.constraint → comparison.Apart

theorem CaptureFree.part {constraint part : Constraint} (free : constraint.CaptureFree)
    {parts : List Constraint} (rewriting : constraint.rewriting ∅ = .decompose parts)
    (member : part ∈ parts) : part.CaptureFree :=
  fun comparison path => free comparison (.head ⟨parts, rewriting, member⟩ path)

theorem captureFree_of_parts {constraint : Constraint}
    (here : ∀ comparison : Comparison, constraint = comparison.constraint → comparison.Apart)
    (parts : ∀ part, constraint.HasPart part → part.CaptureFree) :
    constraint.CaptureFree := by
  intro comparison path
  rcases path.cases_head with equal | ⟨part, isPart, rest⟩
  · exact here comparison equal
  · exact parts part isPart comparison rest

theorem captureFree_of_keep {constraint : Constraint}
    (kept : constraint.rewriting ∅ = .keep) : constraint.CaptureFree := by
  apply captureFree_of_parts
  · rintro comparison rfl
    rw [comparison.rewriting] at kept
    cases kept
  · rintro part ⟨parts, decomposes, _⟩
    rw [kept] at decomposes
    cases decomposes

theorem rewriting_of_freeVar?_eq_none {env : Environment} {left right : RefinedType}
    (leftRigid : env.freeVar? left = none) (rightRigid : env.freeVar? right = none)
    (assignment : TypeAssignment) :
    (subtype env left right).rewriting assignment = decomposeSubtype env left right := by
  simp only [rewriting, isAssignedVar, leftRigid, rightRigid]
  rfl

theorem rewriting_of_rigid {env : Environment} {left right : RefinedType}
    (leftRigid : env.Rigid left) (rightRigid : env.Rigid right)
    (assignment : TypeAssignment) :
    (subtype env left right).rewriting assignment = decomposeSubtype env left right :=
  rewriting_of_freeVar?_eq_none (Environment.freeVar?_of_rigid leftRigid)
    (Environment.freeVar?_of_rigid rightRigid) assignment

theorem decomposeSubtype_cons {env : Environment} {base : BaseType}
    {head otherHead : RefinedType} {rest otherRest : List RefinedType}
    (refinement otherRefinement : Formula) (lengths : rest.length = otherRest.length) :
    decomposeSubtype env (.scalar base (head :: rest) refinement)
        (.scalar base (otherHead :: otherRest) otherRefinement) =
      .decompose [.subtype env head otherHead,
        .subtype env (.scalar base rest refinement)
          (.scalar base otherRest otherRefinement)] := by
  have lengths : (head :: rest).length = (otherHead :: otherRest).length :=
    congrArg (· + 1) lengths
  exact if_pos ⟨rfl, lengths⟩

theorem decomposeSubtype_of_ne {env : Environment} {left right : RefinedType}
    (different : left.isScalar ≠ right.isScalar) :
    decomposeSubtype env left right = .mismatch := by
  cases left with
  | scalar _ _ _ =>
      cases right with
      | scalar _ _ _ => exact absurd rfl different
      | function _ _ _ => rfl
  | function _ _ _ =>
      cases right with
      | scalar _ _ _ => rfl
      | function _ _ _ => exact absurd rfl different

end Constraint

theorem Comparison.captureFree {comparison : Comparison} (apart : comparison.Apart)
    (arguments : comparison.arguments.CaptureFree)
    (results : comparison.leftArgument.isScalar = true → comparison.results.CaptureFree)
    (plainResults : comparison.leftArgument.isScalar = false →
      comparison.plainResults.CaptureFree) : comparison.constraint.CaptureFree := by
  apply Constraint.captureFree_of_parts
  · intro other same
    have equal : other = comparison := by
      cases comparison
      cases other
      cases same
      rfl
    exact equal ▸ apart
  · rintro part ⟨parts, decomposes, member⟩
    rw [comparison.rewriting] at decomposes
    cases decomposes
    rw [List.mem_cons, List.mem_singleton] at member
    rcases member with rfl | rfl
    · exact arguments
    · cases isScalar : comparison.leftArgument.isScalar with
      | true => exact results isScalar
      | false => exact plainResults isScalar

/-! ## Corresponding subtypings -/

/-- The other subtyping is the first one with a name replaced: either that of a variable
that has been bound on the way, or that of an argument still inside one of the types. -/
inductive Corresponds (new : String) : Constraint → Constraint → Prop where
  | renamed {env other : Environment} (old : String) (left right : RefinedType)
      (scopes : env.RenamesTo old new other) :
      Corresponds new (.subtype env left right)
        (.subtype other (left.rename old new) (right.rename old new))
  | left {env other : Environment} {left otherLeft : RefinedType} (right : RefinedType)
      (scopes : env.RenamesTo new new other) (renames : left.RenamesArgument new otherLeft) :
      Corresponds new (.subtype env left right) (.subtype other otherLeft right)
  | right {env other : Environment} (left : RefinedType) {right otherRight : RefinedType}
      (scopes : env.RenamesTo new new other) (renames : right.RenamesArgument new otherRight) :
      Corresponds new (.subtype env left right) (.subtype other left otherRight)

theorem Corresponds.same {new : String} {env other : Environment} (left right : RefinedType)
    (scopes : env.RenamesTo new new other) :
    Corresponds new (.subtype env left right) (.subtype other left right) := by
  have renamed := Corresponds.renamed new left right scopes
  rwa [rename_self, rename_self] at renamed

structure Comparison.Corresponds (new : String) (comparison other : Comparison) : Prop where
  leftScalar : other.leftArgument.isScalar = comparison.leftArgument.isScalar
  rightScalar : other.rightArgument.isScalar = comparison.rightArgument.isScalar
  arguments : Inhabit.Corresponds new comparison.arguments other.arguments
  results : comparison.leftArgument.isScalar = true →
    comparison.rightArgument.isScalar = true →
    Inhabit.Corresponds new comparison.results other.results
  plainResults : comparison.leftArgument.isScalar = false →
    Inhabit.Corresponds new comparison.plainResults other.plainResults

theorem Environment.RenamesTo.ne_old {old new name : String} {env other : Environment}
    (scopes : env.RenamesTo old new other) (isNew : env.New name) (different : name ≠ new) :
    name ≠ old := by
  rintro rfl
  exact scopes.inScope different isNew.symbol

theorem Environment.factAbout_rename {old new name : String} {type : RefinedType}
    (known : type.Known) (oldProper : old ≠ valueName) (newProper : new ≠ valueName)
    (different : name ≠ old) :
    factAbout name (type.rename old new) = (factAbout name type).rename old new := by
  cases type with
  | function _ _ _ => rfl
  | scalar base arguments refinement =>
      rw [rename_scalar]
      exact Formula.substitute_rename_comm (known_scalar.mp known).1 oldProper.symm
        newProper.symm different

theorem Environment.RenamesTo.bind_rename {old new y : String} {env other : Environment}
    {argument result : RefinedType} (scopes : env.RenamesTo old new other)
    (isNew : env.New y) (plain : Plain env new (.function y argument result))
    (isScalar : argument.isScalar = true) :
    (env.addVariable y argument).RenamesTo old new
      (other.addVariable y (argument.rename old new)) :=
  scopes.bind isNew plain.ne isScalar (by cases argument <;> first | rfl | cases isScalar)
    plain.functionArgument.known plain.functionArgument.notFree
    (factAbout_rename plain.functionArgument.known scopes.oldProper scopes.newProper
      (scopes.ne_old isNew plain.ne))

theorem Environment.RenamesTo.bind_same {new y : String} {env other : Environment}
    {argument result : RefinedType} (scopes : env.RenamesTo new new other)
    (isNew : env.New y) (plain : Plain env new (.function y argument result))
    (isScalar : argument.isScalar = true) :
    (env.addVariable y argument).RenamesTo new new (other.addVariable y argument) := by
  have bound := scopes.bind_rename isNew plain isScalar
  rwa [rename_self] at bound

section Functions

variable {new : String} {env other : Environment} {x y : String}
  {leftArgument leftResult rightArgument rightResult : RefinedType}

section Left

variable (left : Plain env new (.function x leftArgument leftResult))
  (right : Plain env new (.function y rightArgument rightResult))
  (apart : Comparison.Apart ⟨env, x, leftArgument, leftResult, y, rightArgument, rightResult⟩)
  (scopes : env.RenamesTo new new other)

include left right apart scopes

theorem corresponds_leftHere :
    Comparison.Corresponds new
      ⟨env, x, leftArgument, leftResult, y, rightArgument, rightResult⟩
      ⟨other, new, leftArgument, leftResult.rename x new, y, rightArgument, rightResult⟩ where
  leftScalar := rfl
  rightScalar := rfl
  arguments := .same _ _ scopes
  results leftScalar rightScalar := by
    have bound := scopes.bind_same (apart.new leftScalar) right rightScalar
    cases leftArgument with
    | function _ _ _ => cases leftScalar
    | scalar base arguments refinement =>
        have inResult := left.functionResult
        have same : (leftResult.rename x new).renameVar new y
            (.scalar base arguments refinement) =
              leftResult.renameVar x y (.scalar base arguments refinement) :=
          substitute_rename inResult.known inResult.notFree inResult.notArgument
        dsimp only [Comparison.results]
        rw [same]
        exact .same _ _ bound
  plainResults leftFunction := by
    dsimp only [Comparison.plainResults]
    rw [rename_of_not_mem (apart.leftSilent leftFunction)]
    exact .same _ _ scopes

theorem corresponds_leftArgument {leftArgument' : RefinedType}
    (inside : leftArgument.RenamesArgument new leftArgument') :
    Comparison.Corresponds new
      ⟨env, x, leftArgument, leftResult, y, rightArgument, rightResult⟩
      ⟨other, x, leftArgument', leftResult, y, rightArgument, rightResult⟩ where
  leftScalar := by cases inside <;> rfl
  rightScalar := rfl
  arguments := .right _ scopes inside
  results leftScalar rightScalar := by
    have bound := scopes.bind_same (apart.new leftScalar) right rightScalar
    cases inside with
    | here | argument | result => cases leftScalar
    | scalar base before after refinement inside =>
        exact .same (leftResult.substitute [(x, .var base.sort y)]) _ bound
  plainResults _ := .same _ _ scopes

theorem corresponds_leftResult {leftResult' : RefinedType}
    (inside : leftResult.RenamesArgument new leftResult') :
    Comparison.Corresponds new
      ⟨env, x, leftArgument, leftResult, y, rightArgument, rightResult⟩
      ⟨other, x, leftArgument, leftResult', y, rightArgument, rightResult⟩ where
  leftScalar := rfl
  rightScalar := rfl
  arguments := .same _ _ scopes
  results leftScalar rightScalar := by
    have bound := scopes.bind_same (apart.new leftScalar) right rightScalar
    cases leftArgument with
    | function _ _ _ => cases leftScalar
    | scalar base arguments refinement =>
        exact .left _ bound
          (inside.substitute left.functionResult left.ne (apart.substitutable leftScalar))
  plainResults _ := .left _ scopes inside

theorem corresponds_rightHere :
    Comparison.Corresponds new
      ⟨env, x, leftArgument, leftResult, y, rightArgument, rightResult⟩
      ⟨other, x, leftArgument, leftResult, new, rightArgument, rightResult.rename y new⟩ where
  leftScalar := rfl
  rightScalar := rfl
  arguments := .same _ _ scopes
  results leftScalar rightScalar := by
    have bound := scopes.bindRenamed (apart.new leftScalar) right.ne (apart.proper leftScalar)
      rightScalar right.functionArgument.known (apart.argument leftScalar)
      right.functionArgument.notFree
    cases leftArgument with
    | function _ _ _ => cases leftScalar
    | scalar base arguments refinement =>
        have same : leftResult.renameVar x new (.scalar base arguments refinement) =
            (leftResult.renameVar x y (.scalar base arguments refinement)).rename y new :=
          (rename_substitute left.functionResult.known (apart.substitutable leftScalar)
            (apart.result leftScalar)).symm
        dsimp only [Comparison.results]
        rw [same]
        exact .renamed y _ _ bound
  plainResults leftFunction := by
    dsimp only [Comparison.plainResults]
    rw [rename_of_not_mem (apart.rightSilent leftFunction)]
    exact .same _ _ scopes

omit left in
theorem corresponds_rightArgument {rightArgument' : RefinedType}
    (inside : rightArgument.RenamesArgument new rightArgument') :
    Comparison.Corresponds new
      ⟨env, x, leftArgument, leftResult, y, rightArgument, rightResult⟩
      ⟨other, x, leftArgument, leftResult, y, rightArgument', rightResult⟩ where
  leftScalar := rfl
  rightScalar := by cases inside <;> rfl
  arguments := .left _ scopes inside
  results leftScalar rightScalar := by
    cases inside with
    | here | argument | result => cases rightScalar
    | scalar base before after refinement inside =>
        exact .same _ _ (scopes.bind (apart.new leftScalar) right.ne rightScalar rfl
          right.functionArgument.known right.functionArgument.notFree
          (Formula.rename_self _).symm)
  plainResults _ := .same _ _ scopes

omit left in
theorem corresponds_rightResult {rightResult' : RefinedType}
    (inside : rightResult.RenamesArgument new rightResult') :
    Comparison.Corresponds new
      ⟨env, x, leftArgument, leftResult, y, rightArgument, rightResult⟩
      ⟨other, x, leftArgument, leftResult, y, rightArgument, rightResult'⟩ where
  leftScalar := rfl
  rightScalar := rfl
  arguments := .same _ _ scopes
  results leftScalar rightScalar := by
    have bound := scopes.bind_same (apart.new leftScalar) right rightScalar
    exact .right _ bound inside
  plainResults _ := .right _ scopes inside

end Left

theorem corresponds_renamed {old : String}
    (left : Plain env new (.function x leftArgument leftResult))
    (right : Plain env new (.function y rightArgument rightResult))
    (apart : Comparison.Apart
      ⟨env, x, leftArgument, leftResult, y, rightArgument, rightResult⟩)
    (scopes : env.RenamesTo old new other) :
    Comparison.Corresponds new
      ⟨env, x, leftArgument, leftResult, y, rightArgument, rightResult⟩
      ⟨other, x, leftArgument.rename old new,
        if x = old then leftResult else leftResult.rename old new, y,
        rightArgument.rename old new,
        if y = old then rightResult else rightResult.rename old new⟩ where
  leftScalar := by cases leftArgument <;> rfl
  rightScalar := by cases rightArgument <;> rfl
  arguments := .renamed old _ _ scopes
  results leftScalar rightScalar := by
    have notOld := scopes.ne_old (apart.new leftScalar) right.ne
    cases leftArgument with
    | function _ _ _ => cases leftScalar
    | scalar base arguments refinement =>
        have inResult := left.functionResult
        have leftSame :
            (if x = old then leftResult else leftResult.rename old new).renameVar x y
                (RefinedType.rename old new (.scalar base arguments refinement)) =
              (leftResult.renameVar x y (.scalar base arguments refinement)).rename old new := by
          rw [rename_scalar]
          dsimp only [renameVar]
          -- The left argument may have had the name, and then hides what is renamed.
          by_cases isOld : x = old
          · rw [if_pos isOld, rename_of_not_mem]
            intro inside
            rcases mem_freeVars_substitute inResult.known inside with equal | free
            · exact notOld equal.symm
            · exact free.2 isOld.symm
          · rw [if_neg isOld]
            exact substitute_rename_comm inResult.known isOld left.ne notOld
        dsimp only [Comparison.results]
        rw [leftSame, if_neg notOld]
        exact .renamed old _ _ (scopes.bind_rename (apart.new leftScalar) right rightScalar)
  plainResults leftFunction := by
    have leftSame : (if x = old then leftResult else leftResult.rename old new) =
        leftResult.rename old new := by
      split
      · rename_i isOld
        exact (rename_of_not_mem (isOld ▸ apart.leftSilent leftFunction)).symm
      · rfl
    have rightSame : (if y = old then rightResult else rightResult.rename old new) =
        rightResult.rename old new := by
      split
      · rename_i isOld
        exact (rename_of_not_mem (isOld ▸ apart.rightSilent leftFunction)).symm
      · rfl
    dsimp only [Comparison.plainResults]
    rw [leftSame, rightSame]
    exact .renamed old _ _ scopes

end Functions

end Inhabit
