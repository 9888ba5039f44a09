import Inhabit.Proofs.Naming.Clauses
import Inhabit.Proofs.Naming.Comparisons
import Inhabit.Proofs.Naming.Lockstep
import Inhabit.Solving.Scripted

/-! Renaming one argument of a function in a subtyping. As long as nothing is captured
on the way, both subtypings decompose in step, and the atoms of one are those of the
other up to the name. -/

namespace Inhabit

open Skeleton RefinedType

/-! ## One step -/

theorem lockstep_scalars {related : Constraint → Constraint → Prop}
    {env other : Environment} {base otherBase : BaseType}
    {left right left' right' : List RefinedType} {first second first' second' : Formula}
    (leftLength : left'.length = left.length) (rightLength : right'.length = right.length)
    (parts : base = otherBase → left.length = right.length →
      ∀ head rest otherHead otherRest, left = head :: rest → right = otherHead :: otherRest →
      ∃ head' rest' otherHead' otherRest',
        left' = head' :: rest' ∧ right' = otherHead' :: otherRest' ∧
        related (.subtype env head otherHead) (.subtype other head' otherHead') ∧
        related
          (.subtype env (.scalar base rest first) (.scalar otherBase otherRest second))
          (.subtype other (.scalar base rest' first')
            (.scalar otherBase otherRest' second'))) :
    Lockstep related
      (Constraint.decomposeSubtype env (.scalar base left first)
        (.scalar otherBase right second))
      (Constraint.decomposeSubtype other (.scalar base left' first')
        (.scalar otherBase right' second')) := by
  by_cases alike : base = otherBase ∧ left.length = right.length
  · rcases alike with ⟨rfl, lengths⟩
    cases left with
    | nil =>
        rw [List.length_nil, eq_comm, List.length_eq_zero_iff] at lengths
        subst lengths
        rw [List.length_nil, List.length_eq_zero_iff] at leftLength rightLength
        subst leftLength rightLength
        have keep (env : Environment) (first second : Formula) :
            Constraint.decomposeSubtype env (.scalar base [] first)
              (.scalar base [] second) = .keep := if_pos ⟨rfl, rfl⟩
        rw [keep, keep]
        exact .keep
    | cons head rest =>
        cases right with
        | nil => cases lengths
        | cons otherHead otherRest =>
            rcases parts rfl lengths head rest otherHead otherRest rfl rfl with
              ⟨head', rest', otherHead', otherRest', rfl, rfl, heads, rests⟩
            simp only [List.length_cons, Nat.add_right_cancel_iff] at lengths leftLength rightLength
            rw [Constraint.decomposeSubtype_cons _ _ lengths,
              Constraint.decomposeSubtype_cons _ _ (by omega)]
            exact .decompose (.cons heads (.cons rests .nil))
  · have different : ¬ (base = otherBase ∧ left'.length = right'.length) := by
      rwa [leftLength, rightLength]
    have first : Constraint.decomposeSubtype env (.scalar base left first)
        (.scalar otherBase right second) = .mismatch := if_neg alike
    have second : Constraint.decomposeSubtype other (.scalar base left' first')
        (.scalar otherBase right' second') = .mismatch := if_neg different
    rw [first, second]
    exact .mismatch

theorem Comparison.lockstep {related : Constraint → Constraint → Prop}
    (comparison other : Comparison)
    (leftScalar : other.leftArgument.isScalar = comparison.leftArgument.isScalar)
    (arguments : related comparison.arguments other.arguments)
    (results : comparison.leftArgument.isScalar = true →
      related comparison.results other.results)
    (plainResults : comparison.leftArgument.isScalar = false →
      related comparison.plainResults other.plainResults) :
    Lockstep related
      (Constraint.decomposeSubtype comparison.env
        (.function comparison.x comparison.leftArgument comparison.leftResult)
        (.function comparison.y comparison.rightArgument comparison.rightResult))
      (Constraint.decomposeSubtype other.env
        (.function other.x other.leftArgument other.leftResult)
        (.function other.y other.rightArgument other.rightResult)) := by
  have parts (comparison : Comparison) :
      Constraint.decomposeSubtype comparison.env
        (.function comparison.x comparison.leftArgument comparison.leftResult)
        (.function comparison.y comparison.rightArgument comparison.rightResult) =
      .decompose [comparison.arguments,
        if comparison.leftArgument.isScalar then comparison.results
        else comparison.plainResults] := rfl
  rw [parts, parts, leftScalar]
  apply Lockstep.decompose
  refine .cons arguments (.cons ?_ .nil)
  cases isScalar : comparison.leftArgument.isScalar with
  | true => exact results isScalar
  | false => exact plainResults isScalar

/-- The constraint is plain and captures nothing, and the other one corresponds to it. -/
structure Follows (new : String) (constraint other : Constraint) : Prop where
  captureFree : constraint.CaptureFree
  plain : ∀ t ∈ constraint.types, t.Plain constraint.env new
  corresponds : Corresponds new constraint other

theorem Corresponds.rigid {new : String} {env other : Environment}
    {left right left' right' : RefinedType}
    (corresponds : Corresponds new (.subtype env left right) (.subtype other left' right'))
    (leftRigid : env.Rigid left) (rightRigid : env.Rigid right) :
    other.Rigid left' ∧ other.Rigid right' := by
  have same {t : RefinedType} (bound : other.boundTypeVars = env.boundTypeVars) :
      other.Rigid t ↔ env.Rigid t := by
    unfold Environment.Rigid Environment.isBound
    rw [bound]
  cases corresponds with
  | renamed old _ _ scopes =>
      rw [same scopes.bound, same scopes.bound, Environment.rigid_rename,
        Environment.rigid_rename]
      exact ⟨leftRigid, rightRigid⟩
  | left _ scopes renames =>
      rw [same scopes.bound, same scopes.bound, Environment.rigid_renamesArgument renames]
      exact ⟨leftRigid, rightRigid⟩
  | right _ scopes renames =>
      rw [same scopes.bound, same scopes.bound, Environment.rigid_renamesArgument renames]
      exact ⟨leftRigid, rightRigid⟩

namespace Corresponds

variable {new : String} {env other : Environment} {left' right' : RefinedType}

theorem forms {constraint otherConstraint : Constraint}
    (corresponds : Corresponds new constraint otherConstraint) :
    ∃ env left right other left' right', constraint = .subtype env left right ∧
      otherConstraint = .subtype other left' right' := by
  cases corresponds with
  | renamed | left | right => exact ⟨_, _, _, _, _, _, rfl, rfl⟩

theorem isScalar {left right : RefinedType}
    (corresponds : Corresponds new (.subtype env left right) (.subtype other left' right')) :
    left'.isScalar = left.isScalar ∧ right'.isScalar = right.isScalar := by
  cases corresponds with
  | renamed => exact ⟨RefinedType.isScalar_rename _ _ _, RefinedType.isScalar_rename _ _ _⟩
  | left _ _ renames => exact ⟨renames.isScalar, rfl⟩
  | right _ _ renames => exact ⟨rfl, renames.isScalar⟩

theorem scalars {base otherBase : BaseType} {left right : List RefinedType}
    {first second : Formula}
    (corresponds : Corresponds new
      (.subtype env (.scalar base left first) (.scalar otherBase right second))
      (.subtype other left' right')) :
    ∃ leftArguments first' rightArguments second',
      left' = .scalar base leftArguments first' ∧
      right' = .scalar otherBase rightArguments second' ∧
      leftArguments.length = left.length ∧ rightArguments.length = right.length ∧
      ∀ head rest otherHead otherRest, left = head :: rest → right = otherHead :: otherRest →
        ∃ head' rest' otherHead' otherRest',
          leftArguments = head' :: rest' ∧ rightArguments = otherHead' :: otherRest' ∧
          Corresponds new (.subtype env head otherHead) (.subtype other head' otherHead') ∧
          Corresponds new
            (.subtype env (.scalar base rest first) (.scalar otherBase otherRest second))
            (.subtype other (.scalar base rest' first')
              (.scalar otherBase otherRest' second')) := by
  cases corresponds with
  | renamed old _ _ scopes =>
      refine ⟨_, _, _, _, rename_scalar _ _ _ _ _, rename_scalar _ _ _ _ _, by simp, by simp, ?_⟩
      rintro head rest otherHead otherRest rfl rfl
      have rests := Corresponds.renamed old (.scalar base rest first)
        (.scalar otherBase otherRest second) scopes
      rw [rename_scalar, rename_scalar] at rests
      exact ⟨_, _, _, _, rfl, rfl, .renamed old _ _ scopes, rests⟩
  | left _ scopes renames =>
      cases renames with
      | @scalar _ before t t' after _ inside =>
          refine ⟨_, _, _, _, rfl, rfl, by simp, rfl, ?_⟩
          rintro head rest otherHead otherRest equal rfl
          cases before with
          | nil =>
              cases equal
              exact ⟨_, _, _, _, rfl, rfl, .left _ scopes inside, .same _ _ scopes⟩
          | cons _ before =>
              cases equal
              exact ⟨_, _, _, _, rfl, rfl, .same _ _ scopes,
                .left _ scopes (.scalar _ _ _ _ inside)⟩
  | right _ scopes renames =>
      cases renames with
      | @scalar _ before t t' after _ inside =>
          refine ⟨_, _, _, _, rfl, rfl, rfl, by simp, ?_⟩
          rintro head rest otherHead otherRest rfl equal
          cases before with
          | nil =>
              cases equal
              exact ⟨_, _, _, _, rfl, rfl, .right _ scopes inside, .same _ _ scopes⟩
          | cons _ before =>
              cases equal
              exact ⟨_, _, _, _, rfl, rfl, .same _ _ scopes,
                .right _ scopes (.scalar _ _ _ _ inside)⟩

theorem functions {comparison : Comparison}
    (corresponds : Corresponds new comparison.constraint (.subtype other left' right'))
    (left : Plain comparison.env new
      (.function comparison.x comparison.leftArgument comparison.leftResult))
    (right : Plain comparison.env new
      (.function comparison.y comparison.rightArgument comparison.rightResult))
    (apart : comparison.Apart) :
    ∃ x' leftArgument' leftResult' y' rightArgument' rightResult',
      left' = .function x' leftArgument' leftResult' ∧
      right' = .function y' rightArgument' rightResult' ∧
      comparison.Corresponds new
        ⟨other, x', leftArgument', leftResult', y', rightArgument', rightResult'⟩ := by
  cases corresponds with
  | renamed old _ _ scopes =>
      exact ⟨_, _, _, _, _, _, rfl, rfl, corresponds_renamed left right apart scopes⟩
  | left _ scopes renames =>
      cases renames with
      | here =>
          exact ⟨_, _, _, _, _, _, rfl, rfl, corresponds_leftHere left right apart scopes⟩
      | argument _ _ inside =>
          exact ⟨_, _, _, _, _, _, rfl, rfl,
            corresponds_leftArgument left right apart scopes inside⟩
      | result _ _ inside =>
          exact ⟨_, _, _, _, _, _, rfl, rfl,
            corresponds_leftResult left right apart scopes inside⟩
  | right _ scopes renames =>
      cases renames with
      | here =>
          exact ⟨_, _, _, _, _, _, rfl, rfl, corresponds_rightHere left right apart scopes⟩
      | argument _ _ inside =>
          exact ⟨_, _, _, _, _, _, rfl, rfl,
            corresponds_rightArgument right apart scopes inside⟩
      | result _ _ inside =>
          exact ⟨_, _, _, _, _, _, rfl, rfl,
            corresponds_rightResult right apart scopes inside⟩

end Corresponds

theorem Follows.isSubtype {new : String} {constraint other : Constraint}
    (follows : Follows new constraint other) : constraint.IsSubtype ∧ other.IsSubtype := by
  rcases follows.corresponds.forms with ⟨env, left, right, _, _, _, rfl, rfl⟩
  exact ⟨⟨_, _, _, rfl⟩, ⟨_, _, _, rfl⟩⟩

theorem Follows.of_plain {new : String} {env : Environment} {left right : RefinedType}
    {other : Constraint} (captureFree : (Constraint.subtype env left right).CaptureFree)
    (leftPlain : left.Plain env new) (rightPlain : right.Plain env new)
    (corresponds : Corresponds new (.subtype env left right) other) :
    Follows new (.subtype env left right) other where
  captureFree := captureFree
  plain := by
    rw [Constraint.types, List.forall_mem_cons, List.forall_mem_singleton]
    exact ⟨leftPlain, rightPlain⟩
  corresponds := corresponds

theorem Follows.functions {new : String} (comparison other : Comparison)
    (captureFree : comparison.constraint.CaptureFree)
    (left : Plain comparison.env new
      (.function comparison.x comparison.leftArgument comparison.leftResult))
    (right : Plain comparison.env new
      (.function comparison.y comparison.rightArgument comparison.rightResult))
    (corresponds : comparison.Corresponds new other)
    (otherLeft : other.env.Rigid other.leftArgument)
    (otherRight : other.env.Rigid other.rightArgument) :
    Lockstep (Follows new) (comparison.constraint.rewriting ∅)
      (Constraint.decomposeSubtype other.env
        (.function other.x other.leftArgument other.leftResult)
        (.function other.y other.rightArgument other.rightResult)) := by
  have resultsFree := captureFree.part comparison.rewriting
    (List.mem_cons_of_mem _ List.mem_cons_self)
  by_cases comparable : comparison.leftArgument.isScalar = true ∧
      comparison.rightArgument.isScalar = false
  · -- Nothing is bound in step with the other side, but the arguments fail at once.
    rcases comparable with ⟨leftScalar, rightFunction⟩
    have mismatch : comparison.arguments.rewriting ∅ = .mismatch := by
      rw [Comparison.arguments, Constraint.rewriting_of_rigid right.functionArgument.rigid
        left.functionArgument.rigid]
      exact Constraint.decomposeSubtype_of_ne (by simp [leftScalar, rightFunction])
    have otherMismatch : other.arguments.rewriting ∅ = .mismatch := by
      rw [Comparison.arguments, Constraint.rewriting_of_rigid otherRight otherLeft]
      exact Constraint.decomposeSubtype_of_ne
        (by simp [corresponds.leftScalar, corresponds.rightScalar, leftScalar, rightFunction])
    rw [comparison.rewriting]
    exact .blocked _ _ mismatch otherMismatch
  · have arguments : Follows new comparison.arguments other.arguments :=
      .of_plain (captureFree.part comparison.rewriting List.mem_cons_self)
        right.functionArgument left.functionArgument corresponds.arguments
    have bothRigid := Constraint.rewriting_of_rigid left.rigid right.rigid
    rw [Comparison.constraint, bothRigid]
    apply comparison.lockstep other corresponds.leftScalar arguments
    · intro leftScalar
      rw [if_pos leftScalar] at resultsFree
      have rightScalar : comparison.rightArgument.isScalar = true := by
        simpa [leftScalar] using comparable
      have leftResult := left.functionResult.renameVar comparison.x
        comparison.leftArgument right.ne
      exact .of_plain resultsFree (leftResult.bind _ _) (right.functionResult.bind _ _)
        (corresponds.results leftScalar rightScalar)
    · intro leftFunction
      rw [leftFunction] at resultsFree
      exact .of_plain resultsFree left.functionResult right.functionResult
        (corresponds.plainResults leftFunction)

theorem Follows.lockstep {new : String} {constraint otherConstraint : Constraint}
    (follows : Follows new constraint otherConstraint) :
    Lockstep (Follows new) (constraint.rewriting ∅) (otherConstraint.rewriting ∅) := by
  rcases follows with ⟨captureFree, plain, corresponds⟩
  rcases corresponds.forms with ⟨env, left, right, other, left', right', rfl, rfl⟩
  have leftPlain : left.Plain env new := plain left List.mem_cons_self
  have rightPlain : right.Plain env new :=
    plain right (List.mem_cons_of_mem _ List.mem_cons_self)
  rcases corresponds.rigid leftPlain.rigid rightPlain.rigid with ⟨leftRigid, rightRigid⟩
  have rewriting := Constraint.rewriting_of_rigid leftPlain.rigid rightPlain.rigid ∅
  rw [rewriting, Constraint.rewriting_of_rigid leftRigid rightRigid]
  -- Corresponding sides are built alike, so that either both comparisons fail or none.
  have mismatched (different : left.isScalar ≠ right.isScalar) :
      Lockstep (Follows new) (Constraint.decomposeSubtype env left right)
        (Constraint.decomposeSubtype other left' right') := by
    have shapes := corresponds.isScalar
    rw [Constraint.decomposeSubtype_of_ne different,
      Constraint.decomposeSubtype_of_ne (by rwa [shapes.1, shapes.2])]
    exact .mismatch
  cases left with
  | scalar base leftArguments first =>
      cases right with
      | scalar otherBase rightArguments second =>
          rcases corresponds.scalars with
            ⟨leftArguments', first', rightArguments', second', rfl, rfl, leftLength,
              rightLength, parts⟩
          apply lockstep_scalars leftLength rightLength
          rintro rfl lengths head rest otherHead otherRest rfl rfl
          rcases parts head rest otherHead otherRest rfl rfl with
            ⟨head', rest', otherHead', otherRest', rfl, rfl, heads, rests⟩
          simp only [List.length_cons, Nat.add_right_cancel_iff] at lengths
          rw [Constraint.decomposeSubtype_cons _ _ lengths] at rewriting
          have headsFree := captureFree.part rewriting List.mem_cons_self
          have restsFree :=
            captureFree.part rewriting (List.mem_cons_of_mem _ List.mem_cons_self)
          exact ⟨head', rest', otherHead', otherRest', rfl, rfl,
            .of_plain headsFree (leftPlain.scalarArgument List.mem_cons_self)
              (rightPlain.scalarArgument List.mem_cons_self) heads,
            .of_plain restsFree (leftPlain.scalarFewer (List.subset_cons_self _ _))
              (rightPlain.scalarFewer (List.subset_cons_self _ _)) rests⟩
      | function y rightArgument rightResult => exact mismatched nofun
  | function x leftArgument leftResult =>
      cases right with
      | scalar _ _ _ => exact mismatched nofun
      | function y rightArgument rightResult =>
          have apart := captureFree
            ⟨env, x, leftArgument, leftResult, y, rightArgument, rightResult⟩ .refl
          rcases corresponds.functions leftPlain rightPlain apart with
            ⟨x', leftArgument', leftResult', y', rightArgument', rightResult', rfl, rfl, parts⟩
          rw [← rewriting]
          exact Follows.functions
            ⟨env, x, leftArgument, leftResult, y, rightArgument, rightResult⟩
            ⟨other, x', leftArgument', leftResult', y', rightArgument', rightResult'⟩
            captureFree leftPlain rightPlain parts
            (Environment.rigid_function.mp leftRigid).1
            (Environment.rigid_function.mp rightRigid).1

/-! ## Skeletons -/

namespace Skeleton

theorem toTerm_eq_scalar {base : BaseType} {arguments : List (Skeleton ρ)}
    {refinement : ρ} {t : Skeleton ρ}
    (same : t.toTerm = (scalar base arguments refinement).toTerm) :
    ∃ others other, t = .scalar base others other ∧
      others.map toTerm = arguments.map toTerm := by
  cases t with
  | function _ _ _ =>
      cases arguments with
      | nil => cases base <;> cases same
      | cons head rest =>
          rw [toTerm_scalar_cons] at same
          cases same
  | scalar otherBase others other =>
      cases arguments with
      | nil =>
          cases others with
          | nil =>
              have sameBase : otherBase = base := by
                cases base <;> cases otherBase <;> cases same <;> rfl
              exact ⟨[], other, by rw [sameBase], rfl⟩
          | cons head rest =>
              rw [toTerm_scalar_cons] at same
              cases base <;> cases same
      | cons head rest =>
          rw [toTerm_scalar_cons] at same
          cases others with
          | nil => cases otherBase <;> cases same
          | cons otherHead otherRest =>
              rw [toTerm_scalar_cons] at same
              injection same with symbols terms
              cases symbols
              exact ⟨_, other, rfl, terms⟩

theorem toTerm_eq_function {name : String} {argument result t : Skeleton ρ}
    (same : t.toTerm = (function name argument result).toTerm) :
    ∃ other otherArgument otherResult, t = .function other otherArgument otherResult ∧
      otherArgument.toTerm = argument.toTerm ∧ otherResult.toTerm = result.toTerm := by
  cases t with
  | scalar base arguments refinement =>
      cases arguments with
      | nil => cases base <;> cases same
      | cons head rest =>
          rw [toTerm_scalar_cons] at same
          cases same
  | function other otherArgument otherResult =>
      rw [toTerm_function, toTerm_function] at same
      injection same with _ terms
      injection terms with arguments results
      injection results with results
      exact ⟨other, otherArgument, otherResult, rfl, arguments, results⟩

theorem isScalar_eq_of_toTerm_eq {t other : Skeleton ρ} (same : other.toTerm = t.toTerm) :
    other.isScalar = t.isScalar := by
  cases t with
  | scalar base arguments refinement =>
      rcases toTerm_eq_scalar same with ⟨_, _, rfl, _⟩
      rfl
  | function name argument result =>
      rcases toTerm_eq_function same with ⟨_, _, _, rfl, _, _⟩
      rfl

theorem toTerm_rename (old new : String) (t : RefinedType) :
    (t.rename old new).toTerm = t.toTerm := by
  induction t using Skeleton.induction with
  | scalar base arguments refinement induction =>
      rw [rename_scalar]
      apply toTerm_scalar_congr
      rw [List.map_map]
      exact List.map_congr_left induction
  | function name argument result first second =>
      rw [rename_function, toTerm_function, toTerm_function, first]
      split
      · rfl
      · rw [second]

theorem toTerm_renamesArgument {new : String} {t other : RefinedType}
    (renames : t.RenamesArgument new other) : other.toTerm = t.toTerm := by
  induction renames with
  | here name argument result => rw [toTerm_function, toTerm_function, toTerm_rename]
  | argument name result _ induction => rw [toTerm_function, toTerm_function, induction]
  | result name argument _ induction => rw [toTerm_function, toTerm_function, induction]
  | scalar base before after refinement _ induction =>
      apply toTerm_scalar_congr
      simp only [List.map_append, List.map_cons, induction]

end Skeleton

/-- The subtypings compare the same skeletons, all of whose type variables are bound. -/
inductive Alike : Constraint → Constraint → Prop where
  | intro {env other : Environment} {left right left' right' : RefinedType}
      (leftSame : left'.toTerm = left.toTerm) (rightSame : right'.toTerm = right.toTerm)
      (rigid : env.Rigid left ∧ env.Rigid right)
      (otherRigid : other.Rigid left' ∧ other.Rigid right') :
      Alike (.subtype env left right) (.subtype other left' right')

namespace Alike

theorem isSubtype {constraint other : Constraint} (alike : Alike constraint other) :
    constraint.IsSubtype ∧ other.IsSubtype := by
  cases alike with
  | intro => exact ⟨⟨_, _, _, rfl⟩, ⟨_, _, _, rfl⟩⟩

theorem scalars {env other : Environment} {base otherBase : BaseType}
    {left right left' right' : List RefinedType} {first second first' second' : Formula}
    (alike : Alike
      (.subtype env (.scalar base left first) (.scalar otherBase right second))
      (.subtype other (.scalar base left' first') (.scalar otherBase right' second')))
    (leftTerms : left'.map toTerm = left.map toTerm)
    (rightTerms : right'.map toTerm = right.map toTerm) :
    Lockstep Alike
      (Constraint.decomposeSubtype env (.scalar base left first)
        (.scalar otherBase right second))
      (Constraint.decomposeSubtype other (.scalar base left' first')
        (.scalar otherBase right' second')) := by
  have leftLength := congrArg List.length leftTerms
  have rightLength := congrArg List.length rightTerms
  rw [List.length_map, List.length_map] at leftLength rightLength
  apply lockstep_scalars leftLength rightLength
  rintro rfl _ head rest otherHead otherRest rfl rfl
  cases left' with
  | nil => cases leftLength
  | cons head' rest' =>
      cases right' with
      | nil => cases rightLength
      | cons otherHead' otherRest' =>
          rw [List.map_cons, List.map_cons, List.cons.injEq] at leftTerms rightTerms
          cases alike with
          | intro _ _ rigid otherRigid =>
              simp only [Environment.rigid_scalar, List.forall_mem_cons] at rigid otherRigid
              rcases rigid with ⟨⟨bound, leftHead, leftRest⟩, ⟨otherBound, rightHead, rightRest⟩⟩
              rcases otherRigid with
                ⟨⟨bound', leftHead', leftRest'⟩, ⟨otherBound', rightHead', rightRest'⟩⟩
              refine ⟨_, _, _, _, rfl, rfl,
                ⟨leftTerms.1, rightTerms.1, ⟨leftHead, rightHead⟩, leftHead', rightHead'⟩,
                ⟨toTerm_scalar_congr _ leftTerms.2 _ _, toTerm_scalar_congr _ rightTerms.2 _ _,
                  ?_, ?_⟩⟩
              · simp only [Environment.rigid_scalar]
                exact ⟨⟨bound, leftRest⟩, otherBound, rightRest⟩
              · simp only [Environment.rigid_scalar]
                exact ⟨⟨bound', leftRest'⟩, otherBound', rightRest'⟩

theorem lockstep {constraint otherConstraint : Constraint}
    (alike : Alike constraint otherConstraint) :
    Lockstep Alike (constraint.rewriting ∅) (otherConstraint.rewriting ∅) := by
  have whole := alike
  cases alike with
  | @intro env other left right left' right' leftSame rightSame rigid otherRigid =>
      rw [Constraint.rewriting_of_rigid rigid.1 rigid.2,
        Constraint.rewriting_of_rigid otherRigid.1 otherRigid.2]
      cases left with
      | scalar base leftArguments first =>
          rcases toTerm_eq_scalar leftSame with ⟨leftArguments', first', rfl, leftTerms⟩
          cases right with
          | scalar otherBase rightArguments second =>
              rcases toTerm_eq_scalar rightSame with
                ⟨rightArguments', second', rfl, rightTerms⟩
              exact whole.scalars leftTerms rightTerms
          | function y rightArgument rightResult =>
              rcases toTerm_eq_function rightSame with ⟨_, _, _, rfl, _, _⟩
              exact .mismatch
      | function x leftArgument leftResult =>
          rcases toTerm_eq_function leftSame with
            ⟨x', leftArgument', leftResult', rfl, leftArguments, leftResults⟩
          cases right with
          | scalar otherBase rightArguments second =>
              rcases toTerm_eq_scalar rightSame with ⟨_, _, rfl, _⟩
              exact .mismatch
          | function y rightArgument rightResult =>
              rcases toTerm_eq_function rightSame with
                ⟨y', rightArgument', rightResult', rfl, rightArguments, rightResults⟩
              simp only [Environment.rigid_function] at rigid otherRigid
              apply Comparison.lockstep
                ⟨env, x, leftArgument, leftResult, y, rightArgument, rightResult⟩
                ⟨other, x', leftArgument', leftResult', y', rightArgument', rightResult'⟩
              · exact isScalar_eq_of_toTerm_eq leftArguments
              · exact ⟨rightArguments, leftArguments, ⟨rigid.2.1, rigid.1.1⟩,
                  otherRigid.2.1, otherRigid.1.1⟩
              · intro _
                refine ⟨?_, rightResults, ⟨?_, rigid.2.2⟩, ?_, otherRigid.2.2⟩
                · rw [toTerm_renameVar, toTerm_renameVar, leftResults]
                · exact (env.rigid_renameVar x y leftArgument leftResult).mpr rigid.1.2
                · exact (other.rigid_renameVar x' y' leftArgument' leftResult').mpr
                    otherRigid.1.2
              · exact fun _ => ⟨leftResults, rightResults, ⟨rigid.1.2, rigid.2.2⟩,
                  otherRigid.1.2, otherRigid.2.2⟩

theorem of_renamesArgument {new : String} {env : Environment}
    {left right left' right' : RefinedType} (rigid : env.Rigid left ∧ env.Rigid right)
    (renames : (left.RenamesArgument new left' ∧ right' = right) ∨
      (left' = left ∧ right.RenamesArgument new right')) :
    Alike (.subtype env left right) (.subtype env left' right') := by
  rcases renames with ⟨renames, rfl⟩ | ⟨rfl, renames⟩
  · exact ⟨toTerm_renamesArgument renames, rfl, rigid,
      (Environment.rigid_renamesArgument renames).mpr rigid.1, rigid.2⟩
  · exact ⟨rfl, toTerm_renamesArgument renames, rigid, rigid.1,
      (Environment.rigid_renamesArgument renames).mpr rigid.2⟩

end Alike

/-! ## Clauses -/

theorem Follows.sameValidity {new : String} {constraint other : Constraint}
    (kept : Kept (Follows new) constraint other) :
    List.Forall₂ SameValidity constraint.clauses other.clauses := by
  rcases kept with ⟨⟨_, plain, corresponds⟩, isKept, _⟩
  have step := Constraint.step_of_rewriting isKept
  cases corresponds with
  | @renamed env otherEnv old left right scopes =>
      cases step with
      | @keepAtoms _ base first second _ _ =>
          have firstAbsent := (plain _ List.mem_cons_self).notFree
          have secondAbsent := (plain _ (List.mem_cons_of_mem _ List.mem_cons_self)).notFree
          rw [mem_freeVars_scalar, not_or] at firstAbsent secondAbsent
          simp only [atom, rename_scalar, Constraint.clauses, Formula.isTrue_rename]
          split
          · exact .nil
          · exact .cons (scopes.sameValidity firstAbsent.1 secondAbsent.1) .nil
  | left _ _ renames =>
      cases step with
      | keepAtoms _ _ =>
          generalize isAtom : atom _ _ = left at renames
          cases renames <;> simp [atom] at isAtom
  | right _ _ renames =>
      cases step with
      | keepAtoms _ _ =>
          generalize isAtom : atom _ _ = right at renames
          cases renames <;> simp [atom] at isAtom

/-- Renaming an argument to a new name does not change whether a subtyping is simplified
and lowered. If nothing is captured on the way, it does not change which of the clauses
are valid either. -/
theorem reduce_ignores_argument_names {σ : Type} (setting : Setting σ) {memory : Memory σ}
    (unassigned : memory.state.assignment = ∅) {new : String} {env : Environment}
    {left right left' right' : RefinedType} (fresh : env.New new) (proper : new ≠ valueName)
    (leftPlain : left.Plain env new) (rightPlain : right.Plain env new)
    (renames : (left.RenamesArgument new left' ∧ right' = right) ∨
      (left' = left ∧ right.RenamesArgument new right')) :
    ((Search.reduce (.subtype env left' right') setting memory).1 = .ok () ↔
      (Search.reduce (.subtype env left right) setting memory).1 = .ok ()) ∧
    ((Constraint.subtype env left right).CaptureFree →
      List.Forall₂ SameValidity
        (Search.reduce (.subtype env left right) setting memory).2.state.clauses
        (Search.reduce (.subtype env left' right') setting memory).2.state.clauses) := by
  constructor
  · have alike := Alike.of_renamesArgument ⟨leftPlain.rigid, rightPlain.rigid⟩ renames
    have both := Search.reduce_lockstep (fun _ _ => Alike.lockstep)
      (fun _ _ => Alike.isSubtype) setting unassigned alike
    exact both.1.succeeds_iff
  · intro captureFree
    have corresponds : Corresponds new (.subtype env left right) (.subtype env left' right') := by
      have scopes := Environment.RenamesTo.refl fresh proper
      rcases renames with ⟨renames, rfl⟩ | ⟨rfl, renames⟩
      · exact .left _ scopes renames
      · exact .right _ scopes renames
    have follows := Follows.of_plain captureFree leftPlain rightPlain corresponds
    have both := Search.reduce_lockstep (fun _ _ => Follows.lockstep)
      (fun _ _ => Follows.isSubtype) setting unassigned follows
    rcases both.2 with ⟨clauses, kept, otherKept, all, after, otherAfter⟩
    rw [after, otherAfter]
    apply List.rel_append
    · exact List.forall₂_same.mpr fun clause _ => .refl clause
    · exact List.rel_flatMap all fun _ _ kept => Follows.sameValidity kept

section Shadowing

def brief : Setting Record where
  parameters := {}
  solver := .fixed true
  sources := .none
  steps := 10

def blank : Memory Record := brief.start {}

def positive : Formula := (Formula.value .int).atLeast (.int 1)

def equalTo (name : String) : Formula := (Formula.value .int).equals (.var .int name)

def numberFunction (name : String) (refinement : Formula) : RefinedType :=
  .function name (.atom .int .top) (.atom .int refinement)

def numberScope : Environment := (∅ : Environment).addVariable "y" (.atom .int positive)

def useNumber (name : String) : Constraint :=
  .subtype numberScope (numberFunction "x" (equalTo "y")) (numberFunction name positive)

private theorem plain_numberFunction {name new : String} {refinement : Formula}
    (known : refinement.Known) (different : new ≠ name)
    (notFree : new ∉ refinement.variableOccurrences) (env : Environment) :
    (numberFunction name refinement).Plain env new where
  known := known_function.mpr
    ⟨known_scalar.mpr ⟨rfl, nofun⟩, known_scalar.mpr ⟨known, nofun⟩⟩
  rigid := nofun
  notFree inside := by
    rcases mem_freeVars_function.mp inside with inArgument | ⟨inResult, _⟩
    · exact nomatch inArgument
    · rcases mem_freeVars_scalar.mp inResult with free | ⟨_, isArgument, _⟩
      · exact notFree free
      · exact nomatch isArgument
  notArgument inside := different (List.mem_singleton.mp inside)

private theorem useNumber_captureFree : (useNumber "z").CaptureFree := by
  let comparison : Comparison :=
    ⟨numberScope, "x", .atom .int .top, .atom .int (equalTo "y"), "z", .atom .int .top,
      .atom .int positive⟩
  have apart : comparison.Apart :=
    { new := fun _ => ⟨by decide, by decide, by decide +kernel, by decide +kernel⟩
      proper := fun _ => by decide
      argument := fun _ => by decide
      result := fun _ => .inr (by decide)
      substitutable := fun _ => trivial
      leftSilent := nofun
      rightSilent := nofun }
  exact Comparison.captureFree apart (Constraint.captureFree_of_keep rfl)
    (fun _ => Constraint.captureFree_of_keep rfl) nofun

theorem useNumber_renamed :
    ((Search.reduce (useNumber "w") brief blank).1 = .ok () ↔
      (Search.reduce (useNumber "z") brief blank).1 = .ok ()) ∧
    List.Forall₂ SameValidity (Search.reduce (useNumber "z") brief blank).2.state.clauses
      (Search.reduce (useNumber "w") brief blank).2.state.clauses := by
  have fresh : numberScope.New "w" :=
    ⟨by decide, by decide, by decide +kernel, by decide +kernel⟩
  have ignores := reduce_ignores_argument_names brief (rfl : blank.state.assignment = ∅)
    fresh (by decide)
    (plain_numberFunction (by rfl) (by decide) (by decide) numberScope :
      (numberFunction "x" (equalTo "y")).Plain numberScope "w")
    (plain_numberFunction (by rfl) (by decide) (by decide) numberScope :
      (numberFunction "z" positive).Plain numberScope "w")
    (.inr ⟨rfl, .here "z" (.atom .int .top) (.atom .int positive)⟩)
  exact ⟨ignores.1, ignores.2 useNumber_captureFree⟩

/-- The number in scope is captured by an argument of its name: with another name for
the argument, the one clause is valid, and as it is, it is not. -/
theorem useNumber_captured :
    blank.state.assignment = ∅ ∧ numberScope.New "w" ∧
    (numberFunction "x" (equalTo "y")).Plain numberScope "w" ∧
    (numberFunction "y" positive).Plain numberScope "w" ∧
    (numberFunction "y" positive).RenamesArgument "w" (numberFunction "w" positive) ∧
    ∃ captured renamed : HornClause,
      (Search.reduce (useNumber "y") brief blank).1.toOption = some () ∧
      (Search.reduce (useNumber "w") brief blank).1.toOption = some () ∧
      (Search.reduce (useNumber "y") brief blank).2.state.clauses = [captured] ∧
      (Search.reduce (useNumber "w") brief blank).2.state.clauses = [renamed] ∧
      (captured.toFormula.isValid 2).toOption = some false ∧
      (renamed.toFormula.isValid 2).toOption = some true := by
  refine ⟨rfl, ⟨by decide, by decide, by decide +kernel, by decide +kernel⟩,
    plain_numberFunction (by rfl) (by decide) (by decide) numberScope,
    plain_numberFunction (by rfl) (by decide) (by decide) numberScope,
    .here "y" (.atom .int .top) (.atom .int positive),
    ⟨equalTo "y", positive⟩,
    ⟨((Formula.var .int "y").atLeast (.int 1)).and (equalTo "y"), positive⟩, ?_⟩
  decide +kernel

/-- A function of two numbers whose results are less than one of its arguments. -/
def belowArgument (first second bound : String) : RefinedType :=
  .function first (.atom .int .top) (.function second (.atom .int .top)
    (.atom .int (.lessThan (.value .int) (.var .int bound))))

/-- The first argument gets the name that an argument behind it has, and is taken for it:
results below the first argument pass for results below the second one. With another name
there, they do not. -/
theorem belowArgument_captured :
    let comparison (inner : String) : Constraint :=
      .subtype ∅ (belowArgument "x" inner "x") (belowArgument "y" "z" "z")
    blank.state.assignment = ∅ ∧ (∅ : Environment).New "w" ∧
    (belowArgument "x" "y" "x").Plain ∅ "w" ∧ (belowArgument "y" "z" "z").Plain ∅ "w" ∧
    (belowArgument "x" "y" "x").RenamesArgument "w" (belowArgument "x" "w" "x") ∧
    ∃ captured renamed : HornClause,
      (Search.reduce (comparison "y") brief blank).1.toOption = some () ∧
      (Search.reduce (comparison "w") brief blank).1.toOption = some () ∧
      (Search.reduce (comparison "y") brief blank).2.state.clauses = [captured] ∧
      (Search.reduce (comparison "w") brief blank).2.state.clauses = [renamed] ∧
      (captured.toFormula.isValid 2).toOption = some true ∧
      (renamed.toFormula.isValid 2).toOption = some false := by
  let below (bound : String) : Formula := .lessThan (.value .int) (.var .int bound)
  refine ⟨rfl, ⟨by decide, by decide, by decide +kernel, by decide +kernel⟩,
    ⟨rfl, nofun, by decide, by decide⟩, ⟨rfl, nofun, by decide, by decide⟩,
    .result "x" _ (.here "y" (.atom .int .top) (.atom .int (below "x"))),
    ⟨below "z", below "z"⟩, ⟨below "y", below "z"⟩, ?_⟩
  decide +kernel

end Shadowing

end Inhabit
