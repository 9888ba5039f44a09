import Inhabit.Proofs.Enumeration.Terms
import Inhabit.Proofs.Faults.Heads
import Inhabit.Proofs.Naming.ArgumentRenaming
import Inhabit.Proofs.Simplification.Passes
import Inhabit.Proofs.Unification.FreshCopy

/-! Comparisons of types without free variables.

Such types are compared step by step down to their scalars, and what the comparison comes to
is whether the types are the same once erased. The sizes of the types bound the steps. -/

namespace Inhabit

open Skeleton

/-! ## Shapes -/

section Shapes

variable {ρ : Type}

theorem Skeleton.toTerm_shape (t : Skeleton ρ) : t.shape.toTerm = t.toTerm := by
  induction t using Skeleton.induction with
  | scalar base arguments refinement induction =>
      rw [shape_scalar]
      apply toTerm_scalar_congr
      rw [List.map_map]
      exact List.map_congr_left induction
  | function name argument result first second =>
      rw [shape_function, toTerm_function, toTerm_function, first, second]

theorem Skeleton.arity_shape (t : Skeleton ρ) : t.shape.arity = t.arity := by
  rw [← arity_toTerm, toTerm_shape, arity_toTerm]

end Shapes

theorem RefinedType.toTerm_of_shape {t other : RefinedType} (same : t.shape = other.shape) :
    t.toTerm = other.toTerm := by
  rw [← toTerm_shape, same, toTerm_shape]

theorem Environment.Rigid.of_shape {env : Environment} {t other : RefinedType}
    (rigid : env.Rigid other) (same : t.shape = other.shape) : env.Rigid t := by
  unfold Rigid
  rw [← typeVarOccurrences_shape, same, typeVarOccurrences_shape]
  exact rigid

theorem Environment.rigid_congr {env other : Environment}
    (same : other.boundTypeVars = env.boundTypeVars) {t : RefinedType} :
    other.Rigid t ↔ env.Rigid t := by
  unfold Rigid isBound
  rw [same]

theorem RefinedType.shape_instantiate {sorts : SortAssignment}
    {image : String → Option RefinedType} {t : RefinedType}
    (none : ∀ name ∈ t.typeVarOccurrences, image name = .none) :
    (t.instantiate sorts image).shape = t.shape := by
  induction t using Skeleton.induction with
  | function name argument result first second =>
      rw [typeVarOccurrences, List.forall_mem_append] at none
      rw [instantiate, shape_function, shape_function, first none.1, second none.2]
  | scalar base arguments refinement induction =>
      have inside : (arguments.map (instantiate sorts image)).map shape = arguments.map shape := by
        rw [List.map_map]
        refine List.map_congr_left fun t member => ?_
        refine induction t member fun name occurs => none name ?_
        cases base <;> simp only [typeVarOccurrences, typeVarOccurrencesAll_eq_flatMap] <;>
          first
          | exact List.mem_flatMap.mpr ⟨t, member, occurs⟩
          | exact List.mem_cons_of_mem _ (List.mem_flatMap.mpr ⟨t, member, occurs⟩)
      rw [← instantiateAll_eq_map] at inside
      cases base with
      | typeVar name =>
          cases arguments with
          | nil =>
              simp only [instantiate, none name List.mem_cons_self]
              rw [shape_scalar, shape_scalar]
          | cons head rest =>
              rw [instantiate, shape_scalar, shape_scalar, inside]
              exact fun _ _ empty => List.cons_ne_nil head rest empty
      | bool | int | data _ =>
          simp only [instantiate]
          rw [shape_scalar, shape_scalar, inside]

theorem Environment.shape_freshCopy {env : Environment} {t : RefinedType}
    (rigid : env.Rigid t) (supply : NameSupply) :
    ((env.freshCopy t).run supply).1.shape = t.shape := by
  induction t using Skeleton.induction generalizing supply with
  | function name argument result first second =>
      rcases rigid_function.mp rigid with ⟨argumentRigid, resultRigid⟩
      rw [run_freshCopy_function, shape_function, shape_function, first argumentRigid,
        second resultRigid]
  | scalar base arguments refinement induction =>
      rw [run_freshCopy_scalar env supply (freeVar?_of_rigid rigid), shape_scalar, shape_scalar]
      have inner := (rigid_scalar.mp rigid).2
      clear rigid
      congr 1
      induction arguments generalizing supply with
      | nil => rfl
      | cons head rest restInduction =>
          rw [run_freshCopies_cons, List.map_cons, List.map_cons,
            induction head List.mem_cons_self (inner head List.mem_cons_self),
            restInduction (fun t member => induction t (List.mem_cons_of_mem _ member)) _
              (fun t member => inner t (List.mem_cons_of_mem _ member))]

/-! ## Sizes -/

theorem Skeleton.size_toTerm_scalar (base : BaseType) (arguments : List RefinedType)
    (refinement : Formula) :
    (scalar base arguments refinement).toTerm.size =
      (arguments.map fun t => t.toTerm.size).sum + 1 := by
  cases arguments with
  | nil => cases base <;> simp [toTerm, toTerms]
  | cons head rest =>
      rw [toTerm_scalar_cons, TypeTerm.size_node]
      simp [Function.comp_def]

theorem Skeleton.size_toTerm_function (name : String) (argument result : RefinedType) :
    (function name argument result).toTerm.size =
      argument.toTerm.size + result.toTerm.size + 1 := by
  rw [toTerm_function, TypeTerm.size_node]
  simp [Nat.add_assoc]

/-! ## Judgements -/

inductive Constraint.Closed : Constraint → Prop where
  | subtype {env : Environment} {base : BaseType} (left right : Formula)
      (rigid : ∀ refinement, env.freeVar? (.atom base refinement) = none) :
      Closed (.subtype env (.atom base left) (.atom base right))
  | wellFormed (env : Environment) (base : BaseType) (refinement : Formula) :
      Closed (.wellFormed env (.atom base refinement))

/-- Constraints at the front of a list are rewritten to nothing but what they leave in the
workspace, in at most so many steps. -/
def Settles (cost : Nat) (before : Workspace) (constraints : List Constraint)
    (after : Workspace) : Prop :=
  ∃ count, count ≤ cost ∧ ∀ steps rest,
    (rewriteAll (steps + count) (constraints ++ rest)).run.run before =
      (rewriteAll steps rest).run.run after

def Refuses (cost : Nat) (before : Workspace) (constraints : List Constraint) : Prop :=
  ∃ count, count ≤ cost ∧ ∀ steps rest, ∃ failure after,
    (rewriteAll (steps + count) (constraints ++ rest)).run.run before =
      (.error (.failed failure), after)

namespace Settles

variable {cost other : Nat} {before middle after : Workspace}
  {constraint : Constraint} {constraints first second parts : List Constraint}

theorem mono (settles : Settles cost before constraints after) (within : cost ≤ other) :
    Settles other before constraints after := by
  rcases settles with ⟨count, least, runs⟩
  exact ⟨count, least.trans within, runs⟩

theorem append (early : Settles cost before first middle)
    (late : Settles other middle second after) :
    Settles (cost + other) before (first ++ second) after := by
  rcases early with ⟨count, least, runs⟩
  rcases late with ⟨countLate, leastLate, runsLate⟩
  refine ⟨count + countLate, Nat.add_le_add least leastLate, fun steps rest => ?_⟩
  rw [Nat.add_comm count, ← Nat.add_assoc, List.append_assoc, runs, runsLate]

theorem decompose (rewriting : constraint.rewriting before.state.assignment = .decompose parts)
    (settles : Settles cost before parts after) :
    Settles (cost + 1) before [constraint] after := by
  rcases settles with ⟨count, least, runs⟩
  refine ⟨count + 1, Nat.succ_le_succ least, fun steps rest => ?_⟩
  rw [← Nat.add_assoc]
  exact (run_rewriteAll_of_decompose _ rest rewriting).trans (runs steps rest)

theorem keep (rewriting : constraint.rewriting before.state.assignment = .keep) :
    Settles 1 before [constraint] (before.addSimple [constraint]) :=
  ⟨1, le_rfl, fun steps rest => run_rewriteAll_of_keep steps rest rewriting⟩

theorem bind {name : String} {type : RefinedType}
    (rewriting : constraint.rewriting before.state.assignment = .bind name type)
    (absent : before.state.assignment.occursIn name type = false)
    (settles : Settles cost (before.bind constraint.env name type) [constraint] after) :
    Settles (cost + 1) before [constraint] after := by
  rcases settles with ⟨count, least, runs⟩
  refine ⟨count + 1, Nat.succ_le_succ least, fun steps rest => ?_⟩
  rw [← Nat.add_assoc]
  exact (run_rewriteAll_of_bind _ rest rewriting absent).trans (runs steps rest)

theorem run_rewriteAll (settles : Settles cost before constraints after) {steps : Nat}
    (enough : cost ≤ steps) :
    (rewriteAll steps constraints).run.run before = (.ok [], after) := by
  rcases settles with ⟨count, least, runs⟩
  obtain ⟨fewer, rfl⟩ := Nat.exists_eq_add_of_le' (least.trans enough)
  have run := runs fewer []
  rw [List.append_nil] at run
  rw [run]
  cases fewer <;> rfl

end Settles

namespace Refuses

variable {cost other : Nat} {before middle : Workspace} {constraint : Constraint}
  {constraints first second parts : List Constraint}

theorem mono (refuses : Refuses cost before constraints) (within : cost ≤ other) :
    Refuses other before constraints := by
  rcases refuses with ⟨count, least, runs⟩
  exact ⟨count, least.trans within, runs⟩

theorem append_left (refuses : Refuses cost before first) (second : List Constraint) :
    Refuses cost before (first ++ second) := by
  rcases refuses with ⟨count, least, runs⟩
  refine ⟨count, least, fun steps rest => ?_⟩
  rw [List.append_assoc]
  exact runs steps (second ++ rest)

theorem append_right (early : Settles cost before first middle)
    (late : Refuses other middle second) :
    Refuses (cost + other) before (first ++ second) := by
  rcases early with ⟨count, least, runs⟩
  rcases late with ⟨countLate, leastLate, runsLate⟩
  refine ⟨count + countLate, Nat.add_le_add least leastLate, fun steps rest => ?_⟩
  rw [Nat.add_comm count, ← Nat.add_assoc, List.append_assoc, runs]
  exact runsLate steps rest

theorem decompose (rewriting : constraint.rewriting before.state.assignment = .decompose parts)
    (refuses : Refuses cost before parts) : Refuses (cost + 1) before [constraint] := by
  rcases refuses with ⟨count, least, runs⟩
  refine ⟨count + 1, Nat.succ_le_succ least, fun steps rest => ?_⟩
  rw [← Nat.add_assoc]
  rcases runs steps rest with ⟨failure, after, run⟩
  exact ⟨failure, after, (run_rewriteAll_of_decompose _ rest rewriting).trans run⟩

theorem mismatch (rewriting : constraint.rewriting before.state.assignment = .mismatch) :
    Refuses 1 before [constraint] :=
  ⟨1, le_rfl, fun steps rest => ⟨_, _, run_rewriteAll_of_mismatch steps rest rewriting⟩⟩

end Refuses

/-- Whatever has been assigned, the constraints come down to atomic ones if this holds, and
fail if it does not. -/
structure Decides (holds : Prop) (cost : Nat) (constraints : List Constraint) : Prop where
  settles : holds → ∀ before : Workspace, ∃ atoms,
    (∀ constraint ∈ atoms, constraint.Closed) ∧
      Settles cost before constraints (before.addSimple atoms)
  refuses : ¬ holds → ∀ before, Refuses cost before constraints

namespace Decides

variable {holds other : Prop} {cost costOther : Nat} {constraint : Constraint}
  {first second parts : List Constraint}

theorem mono (decides : Decides holds cost first) (within : cost ≤ costOther) :
    Decides holds costOther first where
  settles holds before := by
    rcases decides.settles holds before with ⟨atoms, closed, settles⟩
    exact ⟨atoms, closed, settles.mono within⟩
  refuses fails before := (decides.refuses fails before).mono within

theorem congr (decides : Decides holds cost first) (same : holds ↔ other) :
    Decides other cost first :=
  propext same ▸ decides

theorem append (early : Decides holds cost first) (late : Decides other costOther second) :
    Decides (holds ∧ other) (cost + costOther) (first ++ second) where
  settles both before := by
    rcases early.settles both.1 before with ⟨atoms, closed, settles⟩
    rcases late.settles both.2 (before.addSimple atoms) with ⟨more, closedMore, settlesMore⟩
    rw [Workspace.addSimple_addSimple] at settlesMore
    exact ⟨atoms ++ more, List.forall_mem_append.mpr ⟨closed, closedMore⟩,
      settles.append settlesMore⟩
  refuses fails before := by
    by_cases settled : holds
    · rcases early.settles settled before with ⟨atoms, _, settles⟩
      exact .append_right settles (late.refuses (fun holds => fails ⟨settled, holds⟩) _)
    · exact ((early.refuses settled before).append_left second).mono (Nat.le_add_right _ _)

theorem decompose (decides : Decides holds cost parts)
    (rewriting : ∀ assignment, constraint.rewriting assignment = .decompose parts) :
    Decides holds (cost + 1) [constraint] where
  settles holds before := by
    rcases decides.settles holds before with ⟨atoms, closed, settles⟩
    exact ⟨atoms, closed, settles.decompose (rewriting _)⟩
  refuses fails before := (decides.refuses fails before).decompose (rewriting _)

theorem nil : Decides True 0 [] where
  settles _ before := ⟨[], List.forall_mem_nil _, 0, le_rfl, fun _ _ => by
    rw [Workspace.addSimple_nil]
    rfl⟩
  refuses fails := absurd trivial fails

theorem all {ι : Type} {elements : List ι} {constraint : ι → Constraint} {cost : ι → Nat}
    (each : ∀ element ∈ elements, Decides True (cost element) [constraint element]) :
    Decides True (elements.map cost).sum (elements.map constraint) := by
  induction elements with
  | nil => exact nil
  | cons element rest induction =>
      rw [List.forall_mem_cons] at each
      exact (each.1.append (induction each.2)).congr (and_self_iff)

theorem keep (rewriting : ∀ assignment, constraint.rewriting assignment = .keep)
    (closed : constraint.Closed) : Decides True 1 [constraint] where
  settles _ _ := ⟨[constraint], List.forall_mem_singleton.mpr closed, .keep (rewriting _)⟩
  refuses fails := absurd trivial fails

theorem mismatch (rewriting : ∀ assignment, constraint.rewriting assignment = .mismatch) :
    Decides False 1 [constraint] where
  settles := False.elim
  refuses _ _ := .mismatch (rewriting _)

end Decides

/-! ## Comparisons of rigid types -/

theorem Skeleton.toTerm_scalar_cons_iff {base : BaseType} {head otherHead : RefinedType}
    {rest otherRest : List RefinedType} {refinement other : Formula} :
    (scalar base (head :: rest) refinement).toTerm =
        (scalar base (otherHead :: otherRest) other).toTerm ↔
      head.toTerm = otherHead.toTerm ∧
        (scalar base rest refinement).toTerm = (scalar base otherRest other).toTerm := by
  constructor
  · intro same
    rcases toTerm_eq_scalar same with ⟨_, _, equal, terms⟩
    cases equal
    rw [List.map_cons, List.map_cons, List.cons.injEq] at terms
    exact ⟨terms.1, toTerm_scalar_congr base terms.2 _ _⟩
  · rintro ⟨heads, rests⟩
    rcases toTerm_eq_scalar rests with ⟨_, _, equal, terms⟩
    cases equal
    apply toTerm_scalar_congr
    rw [List.map_cons, List.map_cons, heads, terms]

theorem Skeleton.toTerm_scalar_ne {base other : BaseType}
    {arguments others : List RefinedType} {first second : Formula}
    (different : ¬ (base = other ∧ arguments.length = others.length)) :
    (scalar base arguments first).toTerm ≠ (scalar other others second).toTerm := by
  intro same
  rcases toTerm_eq_scalar same with ⟨_, _, equal, terms⟩
  cases equal
  exact different ⟨rfl, by simpa using congrArg List.length terms⟩

namespace Constraint

theorem decomposeSubtype_functions (env : Environment) (x : String) (argument : RefinedType)
    {result : RefinedType} (y : String) (otherArgument otherResult : RefinedType)
    (rigid : env.Rigid result) :
    ∃ scope renamed, scope.boundTypeVars = env.boundTypeVars ∧ env.Rigid renamed ∧
      renamed.toTerm = result.toTerm ∧
      decomposeSubtype env (.function x argument result)
          (.function y otherArgument otherResult) =
        .decompose [.subtype env otherArgument argument,
          .subtype scope renamed otherResult] := by
  dsimp only [decomposeSubtype]
  split
  · exact ⟨env.addVariable y otherArgument, RefinedType.renameVar result x y argument, rfl,
      (Environment.rigid_renameVar env x y argument result).mpr rigid,
      RefinedType.toTerm_renameVar _ _ _ _, rfl⟩
  · exact ⟨env, result, rfl, rigid, rfl, rfl⟩

section Comparisons

variable {env : Environment} {base otherBase : BaseType} {x y : String}
  {left right head otherHead argument otherArgument result otherResult : RefinedType}
  {rest otherRest : List RefinedType} {first second : Formula}

theorem decides_apart (leftRigid : env.Rigid left) (rightRigid : env.Rigid right)
    (mismatch : decomposeSubtype env left right = .mismatch)
    (different : left.toTerm ≠ right.toTerm) :
    Decides (left.toTerm = right.toTerm) (left.toTerm.size + right.toTerm.size - 1)
      [.subtype env left right] := by
  have mismatches : Decides False 1 [.subtype env left right] :=
    .mismatch fun assignment => (rewriting_of_rigid leftRigid rightRigid assignment).trans mismatch
  have := left.toTerm.size_pos
  have := right.toTerm.size_pos
  exact (mismatches.congr (iff_of_false id different)).mono (by omega)

theorem decides_atoms (leftRigid : env.Rigid (.atom base first))
    (rightRigid : env.Rigid (.atom otherBase second)) :
    Decides ((Skeleton.atom base first).toTerm = (Skeleton.atom otherBase second).toTerm)
      ((Skeleton.atom base first).toTerm.size + (Skeleton.atom otherBase second).toTerm.size - 1)
      [.subtype env (.atom base first) (.atom otherBase second)] := by
  by_cases alike : base = otherBase ∧
      ([] : List RefinedType).length = ([] : List RefinedType).length
  · rcases alike with ⟨rfl, _⟩
    have closed : (Constraint.subtype env (.atom base first) (.atom base second)).Closed :=
      .subtype first second fun _ => Environment.freeVar?_of_rigid (leftRigid.of_shape rfl)
    have kept := Decides.keep (fun assignment =>
      (rewriting_of_rigid leftRigid rightRigid assignment).trans (if_pos ⟨rfl, rfl⟩)) closed
    have := (Skeleton.atom base first).toTerm.size_pos
    have := (Skeleton.atom base second).toTerm.size_pos
    exact (kept.congr (iff_of_true trivial (toTerm_scalar_congr base rfl _ _))).mono (by omega)
  · exact decides_apart leftRigid rightRigid (if_neg alike) (toTerm_scalar_ne alike)

theorem decides_scalars (leftRigid : env.Rigid (.scalar base (head :: rest) first))
    (rightRigid : env.Rigid (.scalar base (otherHead :: otherRest) second))
    (lengths : rest.length = otherRest.length)
    (heads : Decides (head.toTerm = otherHead.toTerm)
      (head.toTerm.size + otherHead.toTerm.size - 1) [.subtype env head otherHead])
    (rests : Decides
      ((Skeleton.scalar base rest first).toTerm = (Skeleton.scalar base otherRest second).toTerm)
      ((Skeleton.scalar base rest first).toTerm.size +
        (Skeleton.scalar base otherRest second).toTerm.size - 1)
      [.subtype env (.scalar base rest first) (.scalar base otherRest second)]) :
    Decides
      ((Skeleton.scalar base (head :: rest) first).toTerm =
        (Skeleton.scalar base (otherHead :: otherRest) second).toTerm)
      ((Skeleton.scalar base (head :: rest) first).toTerm.size +
        (Skeleton.scalar base (otherHead :: otherRest) second).toTerm.size - 1)
      [.subtype env (.scalar base (head :: rest) first)
        (.scalar base (otherHead :: otherRest) second)] := by
  have whole := (heads.append rests).decompose fun assignment =>
    (rewriting_of_rigid leftRigid rightRigid assignment).trans
      (decomposeSubtype_cons first second lengths)
  refine (whole.congr toTerm_scalar_cons_iff.symm).mono ?_
  have := head.toTerm.size_pos
  have := otherHead.toTerm.size_pos
  simp only [size_toTerm_scalar, List.map_cons, List.sum_cons]
  omega

/-- The first result may have been renamed in before it is compared. -/
theorem decides_functions (leftRigid : env.Rigid (.function x argument result))
    (rightRigid : env.Rigid (.function y otherArgument otherResult))
    (arguments : Decides (otherArgument.toTerm = argument.toTerm)
      (otherArgument.toTerm.size + argument.toTerm.size - 1)
      [.subtype env otherArgument argument])
    (results : ∀ scope renamed, scope.boundTypeVars = env.boundTypeVars → env.Rigid renamed →
      renamed.toTerm = result.toTerm →
        Decides (renamed.toTerm = otherResult.toTerm)
          (renamed.toTerm.size + otherResult.toTerm.size - 1)
          [.subtype scope renamed otherResult]) :
    Decides
      ((Skeleton.function x argument result).toTerm =
        (Skeleton.function y otherArgument otherResult).toTerm)
      ((Skeleton.function x argument result).toTerm.size +
        (Skeleton.function y otherArgument otherResult).toTerm.size - 1)
      [.subtype env (.function x argument result) (.function y otherArgument otherResult)] := by
  rcases decomposeSubtype_functions env x argument y otherArgument otherResult
    (Environment.rigid_function.mp leftRigid).2 with
    ⟨scope, renamed, bound, renamedRigid, same, decomposes⟩
  have whole := (arguments.append (results scope renamed bound renamedRigid same)).decompose
    fun assignment => (rewriting_of_rigid leftRigid rightRigid assignment).trans decomposes
  refine (whole.congr ?_).mono ?_
  · rw [same, toTerm_function, toTerm_function]
    simp [eq_comm]
  · rw [same, size_toTerm_function, size_toTerm_function]
    have := argument.toTerm.size_pos
    have := otherArgument.toTerm.size_pos
    have := result.toTerm.size_pos
    omega

end Comparisons

/-- Types without free variables compare exactly if they are the same once erased, whatever
has been assigned. -/
theorem decides_subtype (env : Environment) (left right : RefinedType)
    (leftRigid : env.Rigid left) (rightRigid : env.Rigid right) :
    Decides (left.toTerm = right.toTerm) (left.toTerm.size + right.toTerm.size - 1)
      [.subtype env left right] := by
  match left, right with
  | .scalar base arguments refinement, .function y argument result =>
      exact decides_apart leftRigid rightRigid rfl fun same =>
        nomatch isScalar_eq_of_toTerm_eq same
  | .function x argument result, .scalar base arguments refinement =>
      exact decides_apart leftRigid rightRigid rfl fun same =>
        nomatch isScalar_eq_of_toTerm_eq same
  | .scalar base [] first, .scalar otherBase [] second =>
      exact decides_atoms leftRigid rightRigid
  | .scalar base [] first, .scalar otherBase (head :: rest) second =>
      have different : ¬ (base = otherBase ∧
          ([] : List RefinedType).length = (head :: rest).length) :=
        fun alike => nomatch alike.2
      exact decides_apart leftRigid rightRigid (if_neg different) (toTerm_scalar_ne different)
  | .scalar base (head :: rest) first, .scalar otherBase [] second =>
      have different : ¬ (base = otherBase ∧
          (head :: rest).length = ([] : List RefinedType).length) :=
        fun alike => nomatch alike.2
      exact decides_apart leftRigid rightRigid (if_neg different) (toTerm_scalar_ne different)
  | .scalar base (head :: rest) first, .scalar otherBase (otherHead :: otherRest) second =>
      by_cases alike : base = otherBase ∧ (head :: rest).length = (otherHead :: otherRest).length
      · rcases alike with ⟨rfl, lengths⟩
        have left := Environment.rigid_scalar.mp leftRigid
        have right := Environment.rigid_scalar.mp rightRigid
        have leftInner := List.forall_mem_cons.mp left.2
        have rightInner := List.forall_mem_cons.mp right.2
        exact decides_scalars leftRigid rightRigid (Nat.succ_inj.mp lengths)
          (decides_subtype env head otherHead leftInner.1 rightInner.1)
          (decides_subtype env (.scalar base rest first) (.scalar base otherRest second)
            (Environment.rigid_scalar.mpr ⟨left.1, leftInner.2⟩)
            (Environment.rigid_scalar.mpr ⟨right.1, rightInner.2⟩))
      · exact decides_apart leftRigid rightRigid (if_neg alike) (toTerm_scalar_ne alike)
  | .function x argument result, .function y otherArgument otherResult =>
      have left := Environment.rigid_function.mp leftRigid
      have right := Environment.rigid_function.mp rightRigid
      -- The results are compared under another name, which their terms do not show.
      apply decides_functions leftRigid rightRigid
        (decides_subtype env otherArgument argument right.1 left.1)
      intro scope renamed bound renamedRigid same
      exact decides_subtype scope renamed otherResult
        ((Environment.rigid_congr bound).mpr renamedRigid)
        ((Environment.rigid_congr bound).mpr right.2)
termination_by left.toTerm.size + right.toTerm.size
decreasing_by
  · simp only [size_toTerm_scalar, List.map_cons, List.sum_cons]
    omega
  · have := head.toTerm.size_pos
    simp only [size_toTerm_scalar, List.map_cons, List.sum_cons]
    omega
  · simp only [size_toTerm_function]
    omega
  · rw [same]
    simp only [size_toTerm_function]
    omega

theorem rewriting_wellFormed_of_rigid {env : Environment} {t : RefinedType}
    (rigid : env.Rigid t) (assignment : TypeAssignment) :
    (wellFormed env t).rewriting assignment = decomposeWellFormed env t := by
  simp only [rewriting, isAssignedVar, Environment.freeVar?_of_rigid rigid]
  rfl

theorem decides_wellFormed (env : Environment) (t : RefinedType) (rigid : env.Rigid t) :
    Decides True (2 * t.toTerm.size - 1) [.wellFormed env t] := by
  induction t using Skeleton.induction generalizing env with
  | function name argument result first second =>
      rcases Environment.rigid_function.mp rigid with ⟨argumentRigid, resultRigid⟩
      have arguments := first env argumentRigid
      have results := second (env.addVariable name argument) resultRigid
      have parts := (arguments.append results).congr (and_self_iff)
      apply (parts.decompose (rewriting_wellFormed_of_rigid rigid)).mono
      rw [size_toTerm_function]
      omega
  | scalar base arguments refinement induction =>
      have whole := Environment.rigid_scalar.mp rigid
      have itself : Decides True 1 [.wellFormed env (.atom base refinement)] :=
        .keep (rewriting_wellFormed_of_rigid (Environment.rigid_scalar.mpr
          ⟨whole.1, List.forall_mem_nil _⟩)) (.wellFormed env base refinement)
      cases arguments with
      | nil =>
          apply itself.mono
          rw [size_toTerm_scalar]
          exact le_rfl
      | cons head rest =>
          have inner : Decides True
              (((head :: rest).map fun t : RefinedType => 2 * t.toTerm.size - 1).sum)
              ((head :: rest).map (.wellFormed env)) :=
            .all fun t member => induction t member env (whole.2 t member)
          have parts := (inner.append itself).congr (and_self_iff)
          apply (parts.decompose (rewriting_wellFormed_of_rigid rigid)).mono
          have inRest : (rest.map fun t : RefinedType => 2 * t.toTerm.size - 1).sum ≤
              (rest.map fun t : RefinedType => 2 * t.toTerm.size).sum :=
            List.sum_le_sum fun _ _ => Nat.sub_le _ _
          have := head.toTerm.size_pos
          rw [List.sum_map_mul_left] at inRest
          simp only [size_toTerm_scalar, List.map_cons, List.sum_cons]
          omega

end Constraint

end Inhabit
