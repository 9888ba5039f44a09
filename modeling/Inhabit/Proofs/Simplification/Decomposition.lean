import Inhabit.Proofs.Subtyping.Comparisons

/-! The atomic constraints that a constraint without free type variables comes down to, by
recursion on its types. Rewriting, which keeps a list of what is left to do and compares the
arguments of a scalar one at a time, gives these in this order. -/

namespace Inhabit

open Skeleton

/-! ## Pairs of types -/

def Skeleton.head : Skeleton ρ → Option (BaseType × Nat)
  | .scalar base arguments _ => some (base, arguments.length)
  | .function _ _ _ => none

theorem Skeleton.size_toTerm_lt_of_mem (base : BaseType) {arguments : List RefinedType}
    (refinement : Formula) {t : RefinedType} (member : t ∈ arguments) :
    t.toTerm.size < (scalar base arguments refinement).toTerm.size := by
  rw [size_toTerm_scalar]
  exact Nat.lt_succ_of_le (List.single_le_sum (fun _ _ => Nat.zero_le _) _
    (List.mem_map_of_mem member))

theorem Skeleton.head_eq_of_toTerm_eq {left right : RefinedType}
    (same : left.toTerm = right.toTerm) : left.head = right.head := by
  cases right with
  | scalar base arguments refinement =>
      obtain ⟨others, other, rfl, terms⟩ := toTerm_eq_scalar same
      have lengths : others.length = arguments.length := by
        simpa using congrArg List.length terms
      rw [head, head, lengths]
  | function name argument result =>
      obtain ⟨_, _, _, rfl, _, _⟩ := toTerm_eq_function same
      rfl

theorem Skeleton.head_ne_of_isScalar_ne {left right : Skeleton ρ}
    (different : left.isScalar ≠ right.isScalar) : left.head ≠ right.head := by
  intro same
  cases left <;> cases right <;> first | exact different rfl | cases same

/-- Induction along the comparison of two types: at the arguments of scalars, and at those
of functions, the other way round, before their results. -/
theorem RefinedType.comparison_induction
    {motive : Environment → RefinedType → RefinedType → Prop}
    (apart : ∀ env left right, left.head ≠ right.head → motive env left right)
    (scalars : ∀ env base arguments otherArguments refinement other,
      List.Forall₂ (motive env) arguments otherArguments →
        motive env (.scalar base arguments refinement) (.scalar base otherArguments other))
    (functions : ∀ env x argument result y otherArgument otherResult,
      motive env otherArgument argument →
      motive (env.addFormal y otherArgument) (RefinedType.renameVar result x y argument)
        otherResult →
      motive env (.function x argument result) (.function y otherArgument otherResult))
    (env : Environment) (left right : RefinedType) : motive env left right := by
  match left, right with
  | .scalar _ _ _, .function _ _ _ => exact apart _ _ _ nofun
  | .function _ _ _, .scalar _ _ _ => exact apart _ _ _ nofun
  | .function x argument result, .function y otherArgument otherResult =>
      exact functions env x argument result y otherArgument otherResult
        (comparison_induction apart scalars functions env otherArgument argument)
        (comparison_induction apart scalars functions _ _ otherResult)
  | .scalar base arguments refinement, .scalar otherBase otherArguments other =>
      by_cases alike : base = otherBase ∧ arguments.length = otherArguments.length
      · rw [← alike.1]
        refine scalars env base arguments otherArguments refinement other
          (List.forall₂_iff_get.mpr ⟨alike.2, fun index within otherWithin => ?_⟩)
        exact comparison_induction apart scalars functions env
          (arguments.get ⟨index, within⟩) (otherArguments.get ⟨index, otherWithin⟩)
      · exact apart env _ _ fun same => alike (by simpa [head] using same)
termination_by left.toTerm.size + right.toTerm.size
decreasing_by
  · simp only [size_toTerm_function]
    omega
  · rw [RefinedType.toTerm_renameVar]
    simp only [size_toTerm_function]
    omega
  · have first := size_toTerm_lt_of_mem base refinement (arguments.get_mem ⟨index, within⟩)
    have second := size_toTerm_lt_of_mem otherBase other
      (otherArguments.get_mem ⟨index, otherWithin⟩)
    omega

/-- Atomic constraints in order, up to the first comparison of types that are built
differently, if there is one. -/
structure Decomposition where
  atoms : List Constraint := []
  mismatch : Option Constraint := none

namespace Decomposition

def atom (constraint : Constraint) : Decomposition := { atoms := [constraint] }

def apart (constraint : Constraint) : Decomposition := { mismatch := some constraint }

def andThen (first second : Decomposition) : Decomposition :=
  match first.mismatch with
  | some _ => first
  | none => { atoms := first.atoms ++ second.atoms, mismatch := second.mismatch }

section Order

variable {first second third : Decomposition} {constraint : Constraint}

theorem andThen_of_mismatch (stops : first.mismatch = some constraint) :
    first.andThen second = first := by
  rw [andThen, stops]

theorem andThen_of_complete (complete : first.mismatch = none) :
    first.andThen second =
      { atoms := first.atoms ++ second.atoms, mismatch := second.mismatch } := by
  rw [andThen, complete]

theorem mismatch_andThen :
    (first.andThen second).mismatch = none ↔
      first.mismatch = none ∧ second.mismatch = none := by
  cases stops : first.mismatch with
  | some _ => simp [andThen_of_mismatch stops, stops]
  | none => simp [andThen_of_complete stops]

theorem andThen_assoc :
    (first.andThen second).andThen third = first.andThen (second.andThen third) := by
  cases stops : first.mismatch with
  | some _ => rw [andThen_of_mismatch stops, andThen_of_mismatch stops, andThen_of_mismatch stops]
  | none =>
      rw [andThen_of_complete stops, andThen_of_complete stops]
      cases stopsLater : second.mismatch with
      | some _ => rw [andThen_of_mismatch stopsLater, andThen_of_mismatch rfl, stopsLater]
      | none => rw [andThen_of_complete stopsLater, andThen_of_complete rfl, List.append_assoc]

end Order

def outcome (decomposition : Decomposition) : Except Failure (List Constraint) :=
  match decomposition.mismatch with
  | some constraint => .error ⟨.shapeMismatch constraint, none⟩
  | none => .ok []

theorem outcome_of_mismatch {decomposition : Decomposition} {constraint : Constraint}
    (stops : decomposition.mismatch = some constraint) :
    decomposition.outcome = .error ⟨.shapeMismatch constraint, none⟩ := by
  rw [outcome, stops]

theorem outcome_of_complete {decomposition : Decomposition}
    (complete : decomposition.mismatch = none) : decomposition.outcome = .ok [] := by
  rw [outcome, complete]

mutual

/-- The decomposition of a subtyping. Functions are compared at their arguments, the other
way round, and at their results in the scope of the right argument. -/
def ofSubtype (env : Environment) : (left right : RefinedType) → Decomposition
  | .scalar base arguments refinement, .scalar otherBase otherArguments other =>
      if base = otherBase ∧ arguments.length = otherArguments.length then
        (ofArguments env arguments otherArguments).andThen
          (atom (.subtype env (.atom base refinement) (.atom base other)))
      else
        apart (.subtype env (.scalar base arguments refinement)
          (.scalar otherBase otherArguments other))
  | .function x argument result, .function y otherArgument otherResult =>
      (ofSubtype env otherArgument argument).andThen
        (ofSubtype (env.addFormal y otherArgument) (RefinedType.renameVar result x y argument)
          otherResult)
  | left, right => apart (.subtype env left right)
termination_by left right => 2 * (left.toTerm.size + right.toTerm.size)
decreasing_by
  · simp only [size_toTerm_scalar]
    omega
  · simp only [size_toTerm_function]
    omega
  · rw [RefinedType.toTerm_renameVar]
    simp only [size_toTerm_function]
    omega

def ofArguments (env : Environment) :
    (arguments others : List RefinedType) → Decomposition
  | t :: rest, other :: otherRest =>
      (ofSubtype env t other).andThen (ofArguments env rest otherRest)
  | _, _ => {}
termination_by arguments others =>
  2 * ((arguments.map fun t => t.toTerm.size).sum + (others.map fun t => t.toTerm.size).sum) + 1
decreasing_by
  · simp only [List.map_cons, List.sum_cons]
    omega
  · have := t.toTerm.size_pos
    simp only [List.map_cons, List.sum_cons]
    omega

end

mutual

/-- The decomposition of a well-formedness. Every argument of a function is in scope in its
result. -/
def ofWellFormed (env : Environment) : RefinedType → Decomposition
  | .scalar base arguments refinement =>
      (ofParts env arguments).andThen (atom (.wellFormed env (.atom base refinement)))
  | .function name argument result =>
      (ofWellFormed env argument).andThen (ofWellFormed (env.addVariable name argument) result)
termination_by structural t => t

def ofParts (env : Environment) : List RefinedType → Decomposition
  | [] => {}
  | t :: rest => (ofWellFormed env t).andThen (ofParts env rest)
termination_by structural ts => ts

end

/-! ## Equations -/

section Equations

variable {env : Environment} {base : BaseType}

theorem ofSubtype_scalars {arguments otherArguments : List RefinedType}
    (refinement other : Formula) (lengths : arguments.length = otherArguments.length) :
    ofSubtype env (.scalar base arguments refinement) (.scalar base otherArguments other) =
      (ofArguments env arguments otherArguments).andThen
        (atom (.subtype env (.atom base refinement) (.atom base other))) := by
  rw [ofSubtype, if_pos ⟨rfl, lengths⟩]

theorem ofSubtype_of_head_ne {left right : RefinedType} (different : left.head ≠ right.head) :
    ofSubtype env left right = apart (.subtype env left right) := by
  match left, right with
  | .scalar _ _ _, .function _ _ _ => rw [ofSubtype] <;> simp
  | .function _ _ _, .scalar _ _ _ => rw [ofSubtype] <;> simp
  | .function _ _ _, .function _ _ _ => exact absurd rfl different
  | .scalar base arguments refinement, .scalar otherBase otherArguments other =>
      rw [ofSubtype, if_neg fun alike => different (by rw [head, head, alike.1, alike.2])]

theorem ofArguments_nil (others : List RefinedType) : ofArguments env [] others = {} := by
  rw [ofArguments]
  exact nofun

theorem ofSubtype_cons {head otherHead : RefinedType} {rest otherRest : List RefinedType}
    (refinement other : Formula) (lengths : rest.length = otherRest.length) :
    ofSubtype env (.scalar base (head :: rest) refinement)
        (.scalar base (otherHead :: otherRest) other) =
      (ofSubtype env head otherHead).andThen
        (ofSubtype env (.scalar base rest refinement) (.scalar base otherRest other)) := by
  rw [ofSubtype_scalars _ _ (congrArg (· + 1) lengths), ofSubtype_scalars _ _ lengths,
    ofArguments, andThen_assoc]

end Equations

theorem mismatch_ofSubtype {env : Environment} {left right : RefinedType} :
    (ofSubtype env left right).mismatch = none ↔ left.toTerm = right.toTerm := by
  induction env, left, right using RefinedType.comparison_induction with
  | apart env left right different =>
      rw [ofSubtype_of_head_ne different]
      exact iff_of_false nofun fun same => different (head_eq_of_toTerm_eq same)
  | scalars env base arguments otherArguments refinement other each =>
      induction each with
      | nil =>
          rw [ofSubtype_scalars _ _ rfl]
          exact iff_of_true (mismatch_andThen.mpr ⟨by rw [ofArguments_nil], rfl⟩)
            (toTerm_scalar_congr base rfl _ _)
      | cons heads rests induction =>
          rw [ofSubtype_cons _ _ rests.length_eq, mismatch_andThen, heads, induction,
            toTerm_scalar_cons_iff]
  | functions env x argument result y otherArgument otherResult arguments results =>
      rw [ofSubtype, mismatch_andThen, arguments, results, RefinedType.toTerm_renameVar,
        toTerm_function, toTerm_function]
      simp [eq_comm]

theorem mismatch_ofWellFormed (env : Environment) (t : RefinedType) :
    (ofWellFormed env t).mismatch = none := by
  induction t using Skeleton.induction generalizing env with
  | function name argument result first second =>
      exact mismatch_andThen.mpr ⟨first env, second _⟩
  | scalar base arguments refinement induction =>
      refine mismatch_andThen.mpr ⟨?_, rfl⟩
      induction arguments with
      | nil => rfl
      | cons t rest restInduction =>
          exact mismatch_andThen.mpr ⟨induction t List.mem_cons_self env,
            restInduction fun t member => induction t (List.mem_cons_of_mem _ member)⟩

/-! ## Agreement with rewriting -/

theorem outcome_map_nil (decomposition : Decomposition) :
    decomposition.outcome.map ([] ++ ·) = decomposition.outcome := by
  cases stops : decomposition.mismatch with
  | some _ => rw [outcome_of_mismatch stops, Except.map]
  | none => rw [outcome_of_complete stops, Except.map, List.append_nil]

def Describes (decomposition : Decomposition) (constraints : List Constraint) : Prop :=
  ∀ workspace : Workspace, Rewrites workspace constraints decomposition.outcome
    (workspace.addSimple decomposition.atoms)

namespace Describes

variable {first second : Decomposition} {constraint : Constraint}
  {constraints others parts : List Constraint}

theorem nil : Describes {} [] := by
  intro workspace
  rw [workspace.addSimple_nil]
  exact .done workspace

theorem append (head : first.Describes constraints) (tail : second.Describes others) :
    (first.andThen second).Describes (constraints ++ others) := by
  intro workspace
  have early := head workspace
  cases stops : first.mismatch with
  | some constraint =>
      rw [andThen_of_mismatch stops]
      rw [outcome_of_mismatch stops] at early ⊢
      exact early.append_of_error others
  | none =>
      rw [outcome_of_complete stops] at early
      have late := early.append (tail (workspace.addSimple first.atoms))
      rw [Workspace.addSimple_addSimple] at late
      rw [andThen_of_complete stops]
      rwa [outcome_map_nil] at late

theorem decompose (rewriting : ∀ assignment, constraint.rewriting assignment = .decompose parts)
    (describes : first.Describes parts) : first.Describes [constraint] := by
  intro workspace
  have continues := describes workspace
  rw [← parts.append_nil] at continues
  exact .decompose (rewriting _) continues

theorem keep (rewriting : ∀ assignment, constraint.rewriting assignment = .keep) :
    (atom constraint).Describes [constraint] :=
  fun _ => .keep (rewriting _) (.done _)

theorem apart (rewriting : ∀ assignment, constraint.rewriting assignment = .mismatch) :
    (Decomposition.apart constraint).Describes [constraint] := by
  intro workspace
  rw [outcome_of_mismatch rfl, Decomposition.apart, workspace.addSimple_nil]
  exact .mismatch [] (rewriting _)

theorem append_of_mismatch (head : first.Describes constraints)
    (stops : first.mismatch ≠ none) (second : Decomposition) (others : List Constraint) :
    (first.andThen second).Describes (constraints ++ others) := by
  obtain ⟨constraint, stops⟩ := Option.ne_none_iff_exists'.mp stops
  intro workspace
  have early := head workspace
  rw [andThen_of_mismatch stops]
  rw [outcome_of_mismatch stops] at early ⊢
  exact early.append_of_error others

end Describes

theorem decomposeSubtype_of_head_ne {env : Environment} {left right : RefinedType}
    (different : left.head ≠ right.head) :
    Constraint.decomposeSubtype env left right = .mismatch := by
  match left, right with
  | .scalar _ _ _, .function _ _ _ => rfl
  | .function _ _ _, .scalar _ _ _ => rfl
  | .function _ _ _, .function _ _ _ => exact absurd rfl different
  | .scalar base arguments refinement, .scalar otherBase otherArguments other =>
      exact if_neg fun alike => different (by rw [head, head, alike.1, alike.2])

theorem decomposeSubtype_functions {env : Environment} {x y : String}
    {argument result otherArgument otherResult : RefinedType}
    (alike : argument.isScalar = otherArgument.isScalar) :
    Constraint.decomposeSubtype env (.function x argument result)
        (.function y otherArgument otherResult) =
      .decompose [.subtype env otherArgument argument,
        .subtype (env.addFormal y otherArgument) (RefinedType.renameVar result x y argument)
          otherResult] := by
  rw [Constraint.decomposeSubtype, Environment.addFormal, ← alike]
  cases argument <;> rfl

theorem describes_subtype {env : Environment} {left right : RefinedType}
    (leftRigid : env.Rigid left) (rightRigid : env.Rigid right) :
    (ofSubtype env left right).Describes [.subtype env left right] := by
  induction env, left, right using RefinedType.comparison_induction with
  | apart env left right different =>
      rw [ofSubtype_of_head_ne different]
      refine .apart fun assignment => ?_
      rw [Constraint.rewriting_of_rigid leftRigid rightRigid]
      exact decomposeSubtype_of_head_ne different
  | scalars env base arguments otherArguments refinement other each =>
      obtain ⟨bound, leftInner⟩ := Environment.rigid_scalar.mp leftRigid
      obtain ⟨_, rightInner⟩ := Environment.rigid_scalar.mp rightRigid
      clear leftRigid rightRigid
      have rigid : ∀ arguments : List RefinedType, (∀ t ∈ arguments, env.Rigid t) →
          ∀ refinement, env.Rigid (.scalar base arguments refinement) :=
        fun arguments inner refinement => Environment.rigid_scalar.mpr ⟨bound, inner⟩
      induction each with
      | nil =>
          rw [ofSubtype_scalars _ _ rfl, ofArguments_nil]
          refine .keep fun assignment => ?_
          rw [Constraint.rewriting_of_rigid (rigid _ leftInner _) (rigid _ rightInner _)]
          exact if_pos ⟨rfl, rfl⟩
      | cons heads rests induction =>
          rw [ofSubtype_cons _ _ rests.length_eq]
          have left := List.forall_mem_cons.mp leftInner
          have right := List.forall_mem_cons.mp rightInner
          refine ((heads left.1 right.1).append (induction left.2 right.2)).decompose
            fun assignment => ?_
          rw [Constraint.rewriting_of_rigid (rigid _ leftInner _) (rigid _ rightInner _)]
          exact Constraint.decomposeSubtype_cons _ _ rests.length_eq
  | functions env x argument result y otherArgument otherResult arguments results =>
      obtain ⟨leftArgument, leftResult⟩ := Environment.rigid_function.mp leftRigid
      obtain ⟨rightArgument, rightResult⟩ := Environment.rigid_function.mp rightRigid
      have arguments := arguments rightArgument leftArgument
      have results := results
        (Environment.rigid_addFormal.mpr ((Environment.rigid_renameVar ..).mpr leftResult))
        (Environment.rigid_addFormal.mpr rightResult)
      have rewriting := Constraint.rewriting_of_rigid leftRigid rightRigid
      rw [ofSubtype]
      by_cases alike : argument.isScalar = otherArgument.isScalar
      · exact (arguments.append results).decompose fun assignment =>
          (rewriting assignment).trans (decomposeSubtype_functions alike)
      · -- The results are compared in another scope here, but the arguments fail first.
        have stops : (ofSubtype env otherArgument argument).mismatch ≠ none := by
          rw [ofSubtype_of_head_ne (head_ne_of_isScalar_ne (Ne.symm alike))]
          exact nofun
        exact (arguments.append_of_mismatch stops _ [_]).decompose fun assignment =>
          (rewriting assignment)

theorem describes_wellFormed {env : Environment} {t : RefinedType} (rigid : env.Rigid t) :
    (ofWellFormed env t).Describes [.wellFormed env t] := by
  induction t using Skeleton.induction generalizing env with
  | function name argument result first second =>
      obtain ⟨argumentRigid, resultRigid⟩ := Environment.rigid_function.mp rigid
      have results : (ofWellFormed (env.addVariable name argument) result).Describes
          [.wellFormed (env.addVariable name argument) result] := second resultRigid
      exact ((first argumentRigid).append results).decompose
        (Constraint.rewriting_wellFormed_of_rigid rigid)
  | scalar base arguments refinement induction =>
      obtain ⟨bound, inner⟩ := Environment.rigid_scalar.mp rigid
      have residual : (atom (.wellFormed env (.atom base refinement))).Describes
          [.wellFormed env (.atom base refinement)] :=
        .keep (Constraint.rewriting_wellFormed_of_rigid
          (Environment.rigid_scalar.mpr ⟨bound, List.forall_mem_nil _⟩))
      have parts : (ofParts env arguments).Describes (arguments.map (.wellFormed env)) := by
        clear rigid
        induction arguments with
        | nil => exact .nil
        | cons t rest restInduction =>
            rw [List.forall_mem_cons] at induction inner
            exact (induction.1 inner.1).append (restInduction induction.2 inner.2)
      cases arguments with
      | nil => exact residual
      | cons head rest =>
          exact (parts.append residual).decompose
            (Constraint.rewriting_wellFormed_of_rigid rigid)

end Decomposition

/-! ## Results -/

namespace Constraint

def decomposition : Constraint → Decomposition
  | .subtype env left right => .ofSubtype env left right
  | .wellFormed env type => .ofWellFormed env type
  | .wellFormedGuard env guard => .atom (.wellFormedGuard env guard)

def RelatesAlike : Constraint → Prop
  | .subtype _ left right => left.toTerm = right.toTerm
  | .wellFormed _ _ | .wellFormedGuard _ _ => True

theorem mismatch_decomposition (constraint : Constraint) :
    constraint.decomposition.mismatch = none ↔ constraint.RelatesAlike := by
  cases constraint with
  | subtype env left right => exact Decomposition.mismatch_ofSubtype
  | wellFormed env type =>
      exact iff_of_true (Decomposition.mismatch_ofWellFormed env type) trivial
  | wellFormedGuard env guard => exact iff_of_true rfl trivial

theorem describes_decomposition {constraint : Constraint}
    (rigid : ∀ t ∈ constraint.types, constraint.env.Rigid t) :
    constraint.decomposition.Describes [constraint] := by
  cases constraint with
  | subtype env left right =>
      exact Decomposition.describes_subtype (rigid left (by simp [types]))
        (rigid right (by simp [types]))
  | wellFormed env type =>
      exact Decomposition.describes_wellFormed (rigid type (by simp [types]))
  | wellFormedGuard env guard => exact .keep fun _ => rfl

end Constraint

/-- Simplifying a constraint whose type variables are all bound leaves its decomposition with
the atomic constraints and nothing else, and it fails exactly if the types it relates are
built differently. -/
theorem simplify_decomposes {constraint : Constraint}
    (rigid : ∀ t ∈ constraint.types, constraint.env.Rigid t) (workspace : Workspace) :
    ∃ enough, ∀ steps, enough ≤ steps →
      (simplify steps constraint).run.run workspace =
          (constraint.decomposition.outcome.mapError .failed,
            workspace.addSimple constraint.decomposition.atoms) ∧
        ((∃ mismatch, ((simplify steps constraint).run.run workspace).1 =
            .error (.failed ⟨.shapeMismatch mismatch, none⟩)) ↔
          ¬ constraint.RelatesAlike) := by
  obtain ⟨enough, runs⟩ :=
    (Constraint.describes_decomposition rigid workspace).run_rewriteAll
  refine ⟨enough, fun steps sufficient => ?_⟩
  have run : (simplify steps constraint).run.run workspace = _ := runs steps sufficient
  refine ⟨run, ?_⟩
  rw [run, ← constraint.mismatch_decomposition]
  cases stops : constraint.decomposition.mismatch with
  | none =>
      rw [Decomposition.outcome_of_complete stops]
      exact iff_of_false nofun (not_not_intro rfl)
  | some mismatch =>
      rw [Decomposition.outcome_of_mismatch stops]
      exact iff_of_true ⟨mismatch, rfl⟩ nofun

def refinedPairs : Constraint :=
  .subtype ∅
    (.scalar (.data "Pair") [.atom .int ((Formula.value .int).atLeast (.int 0)),
      .atom .bool .top] (.unknown [] "U0"))
    (.scalar (.data "Pair") [.atom .int .top, .atom .bool .bottom] (.unknown [] "U1"))

theorem simplify_refinedPairs : ∃ enough, ∀ steps, enough ≤ steps →
    (simplify steps refinedPairs).run.run default = (.ok [], (default : Workspace).addSimple [
      .subtype ∅ (.atom .int ((Formula.value .int).atLeast (.int 0))) (.atom .int .top),
      .subtype ∅ (.atom .bool .top) (.atom .bool .bottom),
      .subtype ∅ (.atom (.data "Pair") (.unknown [] "U0"))
        (.atom (.data "Pair") (.unknown [] "U1"))]) := by
  have rigid : ∀ t ∈ refinedPairs.types, refinedPairs.env.Rigid t := by decide
  obtain ⟨enough, runs⟩ := simplify_decomposes rigid default
  refine ⟨enough, fun steps sufficient => ?_⟩
  rw [(runs steps sufficient).1]
  simp [refinedPairs, Constraint.decomposition, Decomposition.ofSubtype,
    Decomposition.ofArguments, Decomposition.atom, Decomposition.andThen,
    Decomposition.outcome, Except.mapError]

def higherOrder : Constraint :=
  let inner : RefinedType := .function "n" (.atom .int .top) (.atom .int .top)
  .subtype ∅ (.function "f" inner (.atom .int .top)) (.function "g" inner (.atom .int .top))

/-- An argument that is a function does not enter the scope in which results are compared. -/
theorem higherOrder_scope :
    ((simplify 8 higherOrder).run.run default).2.state.simple.getLast? ≠
      some (.subtype ((∅ : Environment).addVariable "g"
        (.function "n" (.atom .int .top) (.atom .int .top))) (.atom .int .top)
          (.atom .int .top)) := by
  decide +kernel

end Inhabit
