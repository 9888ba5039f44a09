import Inhabit.Proofs.Naming.ArgumentRenaming
import Inhabit.Proofs.Subtyping.Comparisons

/-! Subtyping, as it is checked by simplifying, lowering and asking for the validity of the
clauses, is a preorder. -/

namespace Inhabit

open Skeleton RefinedType Formula

/-! ## Scopes that do not speak of a value -/

/-- No fact in scope speaks of a value that has no name. -/
structure Environment.ValueFree (env : Environment) : Prop where
  assumptions : ∀ fact ∈ env.assumptions, valueName ∉ fact.variableOccurrences
  refutations : ∀ fact ∈ env.refutations, valueName ∉ fact.variableOccurrences
  symbols : ∀ name type, (name, .mono type) ∈ (env.symbolsOfArity 0).entries →
    name ≠ valueName ∧ type.Known
  ghosts : ∀ name type, (name, type) ∈ env.ghosts.entries → name ≠ valueName ∧ type.Known

namespace Environment.ValueFree

variable {env : Environment}

theorem positives (valueFree : env.ValueFree) :
    ∀ fact ∈ env.positives ∅, valueName ∉ fact.variableOccurrences := by
  intro fact member
  rcases mem_positives.mp member with assumed | ⟨name, type, bound, _, rfl, _⟩
  · exact valueFree.assumptions fact assumed
  · rcases mem_scalarBindings.mp bound with ⟨declared, inScope, applied, _⟩
    rw [TypeAssignment.apply_empty] at applied
    have same : declared = type := applied
    have proper := inScope.elim (valueFree.symbols name declared)
      (valueFree.ghosts name declared)
    exact valueName_not_mem_factAbout (same ▸ proper.2) proper.1

theorem impersonal (valueFree : env.ValueFree) (bound : Int64) :
    Impersonal (env.Possible bound) := by
  intro values name possible
  have same {fact : Formula} (absent : valueName ∉ fact.variableOccurrences) :
      (fact.Holds fun atom => values (atom.rename valueName name)) ↔ fact.Holds values := by
    rw [← holds_rename, rename_of_not_mem absent]
  refine ⟨possible.inRange.rename _ _, fun fact member => ?_, fun fact member => ?_⟩
  · exact (same (valueFree.positives fact member)).mpr (possible.positives fact member)
  · have refuted := mem_negatives.mp member
    exact fun holds => possible.negatives fact member
      ((same (valueFree.refutations fact refuted)).mp holds)

end Environment.ValueFree

/-! ## Accepted constraints -/

/-- Nothing is assigned, and nothing is left to be lowered or to be refined. -/
structure Memory.Blank (memory : Memory σ) : Prop where
  assignment : memory.state.assignment = ∅
  simple : memory.state.simple = []
  clauses : memory.state.clauses = []

theorem rewriteAll_unique {steps other : Nat} {constraints : List Constraint}
    {before after otherAfter : Workspace}
    {outcome otherOutcome : Except Interrupt (List Constraint)}
    (ran : (rewriteAll steps constraints).run.run before = (outcome, after))
    (finished : outcome ≠ .error .unfinished)
    (otherRan : (rewriteAll other constraints).run.run before = (otherOutcome, otherAfter))
    (otherFinished : otherOutcome ≠ .error .unfinished) :
    outcome = otherOutcome ∧ after = otherAfter := by
  rcases rewrites_of_run ran finished with ⟨result, rfl, rewrites⟩
  rcases rewrites_of_run otherRan otherFinished with ⟨otherResult, rfl, otherRewrites⟩
  rcases rewrites.unique otherRewrites with ⟨rfl, rfl⟩
  exact ⟨rfl, rfl⟩

namespace Search

variable {σ : Type} {setting : Setting σ} {memory after : Memory σ} {bound : Int64}
  {constraint : Constraint}

/-- With enough steps, the constraint is simplified and lowered, and all clauses that come
of it are valid. -/
def Accepts (setting : Setting σ) (memory : Memory σ) (bound : Int64)
    (constraint : Constraint) : Prop :=
  ∃ steps, (reduce constraint { setting with steps } memory).1 = .ok () ∧
    ∀ clause ∈ (reduce constraint { setting with steps } memory).2.state.clauses,
      clause.toFormula.isValid bound = .ok true

theorem exists_run_of_reduce_ok
    (ended : (reduce constraint setting memory).1 = .ok ()) :
    ∃ deferred workspace, (rewriteAll setting.steps [constraint]).run.run
      ⟨memory.names, memory.state⟩ = (.ok deferred, workspace) := by
  rcases ran : (rewriteAll setting.steps [constraint]).run.run
    ⟨memory.names, memory.state⟩ with ⟨outcome, workspace⟩
  cases outcome with
  | ok deferred => exact ⟨deferred, workspace, rfl⟩
  | error interrupt =>
      have stopped : (rewriteAll setting.steps [constraint]) ⟨memory.names, memory.state⟩ =
          (.error interrupt, workspace) := ran
      rw [reduce, run_bind, rewrite, simplify, ExceptT.run, stopped] at ended
      cases ended

theorem reduce_of_kept {deferred atoms : List Constraint} (blank : memory.Blank)
    (kept : ∀ atom ∈ atoms, atom.IsSubtype ∧ atom.rewriting ∅ = .keep)
    (ran : (rewriteAll setting.steps [constraint]).run.run ⟨memory.names, memory.state⟩ =
      (.ok deferred, Workspace.addSimple ⟨memory.names, memory.state⟩ atoms)) :
    (reduce constraint setting memory).1 = .ok () ∧
      (reduce constraint setting memory).2.state.clauses =
        atoms.flatMap Constraint.clauses := by
  let cleared : Memory σ := { memory with state := { memory.state with simple := [] } }
  have idle : lowerAll setting memory = (.ok (), cleared) := by
    change memory.state.simple.forM lower setting cleared = _
    rw [blank.simple]
    rfl
  rw [reduce_of_ok ran, lowerAll_append kept setting blank.assignment, idle]
  refine ⟨rfl, ?_⟩
  change memory.state.clauses ++ _ = _
  rw [blank.clauses, List.nil_append]

theorem accepts_iff {holds : Prop} (blank : memory.Blank)
    (amounts : AmountsTo bound [constraint] holds) :
    Accepts setting memory bound constraint ↔ holds := by
  rcases amounts with ⟨atoms, kept, ⟨cost, settles⟩, valid⟩
  have enough := (settles ⟨memory.names, memory.state⟩).run_rewriteAll le_rfl
  have validClauses : (∀ clause ∈ atoms.flatMap Constraint.clauses,
      clause.toFormula.isValid bound = .ok true) ↔ holds := by
    rw [← valid, List.forall_mem_flatMap]
    rfl
  rw [← validClauses]
  constructor
  · rintro ⟨steps, ended, passes⟩
    rcases exists_run_of_reduce_ok ended with ⟨deferred, workspace, ran⟩
    rcases rewriteAll_unique ran nofun enough nofun with ⟨_, rfl⟩
    rwa [(reduce_of_kept blank kept ran).2] at passes
  · intro passes
    let granted : Setting σ := { setting with steps := cost }
    have reduced : (reduce constraint granted memory).1 = .ok () ∧ _ :=
      reduce_of_kept blank kept enough
    refine ⟨cost, reduced.1, ?_⟩
    rwa [reduced.2]

theorem toTerm_eq_of_accepts {env : Environment} {left right : RefinedType}
    (leftRigid : env.Rigid left) (rightRigid : env.Rigid right)
    (accepts : Accepts setting memory bound (.subtype env left right)) :
    left.toTerm = right.toTerm := by
  rcases accepts with ⟨steps, ended, _⟩
  rcases exists_run_of_reduce_ok ended with ⟨deferred, workspace, ran⟩
  by_contra different
  rcases (Constraint.decides_subtype env left right leftRigid rightRigid).refuses different
    ⟨memory.names, memory.state⟩ with ⟨count, _, fails⟩
  rcases fails 0 [] with ⟨failure, after, failed⟩
  rcases rewriteAll_unique ran nofun failed nofun with ⟨equal, _⟩
  cases equal

end Search

/-! ## Names of arguments -/

theorem Skeleton.length_argumentNames_of_toTerm {t other : RefinedType}
    (same : t.toTerm = other.toTerm) :
    t.argumentNames.length = other.argumentNames.length := by
  induction t using Skeleton.induction generalizing other with
  | scalar base arguments refinement induction =>
      rcases toTerm_eq_scalar same.symm with ⟨others, _, rfl, terms⟩
      rw [argumentNames_scalar, argumentNames_scalar]
      clear same
      induction arguments generalizing others with
      | nil =>
          rw [List.map_nil, List.map_eq_nil_iff] at terms
          rw [terms]
      | cons head rest inner =>
          cases others with
          | nil => cases terms
          | cons otherHead otherRest =>
              rw [List.map_cons, List.map_cons, List.cons.injEq] at terms
              rw [List.forall_mem_cons] at induction
              rw [List.flatMap_cons, List.flatMap_cons, List.length_append, List.length_append,
                induction.1 terms.1.symm, inner induction.2 otherRest terms.2]
  | function name argument result first second =>
      rcases toTerm_eq_function same.symm with ⟨_, _, _, rfl, arguments, results⟩
      simp only [argumentNames_function, List.length_cons, List.length_append,
        first arguments.symm, second results.symm]

theorem Skeleton.shape_eq_of_toTerm {t other : RefinedType} (same : t.toTerm = other.toTerm)
    (names : t.argumentNames = other.argumentNames) : t.shape = other.shape := by
  induction t using Skeleton.induction generalizing other with
  | scalar base arguments refinement induction =>
      rcases toTerm_eq_scalar same.symm with ⟨others, _, rfl, terms⟩
      rw [argumentNames_scalar, argumentNames_scalar] at names
      rw [shape_scalar, shape_scalar]
      refine congrArg (Skeleton.scalar base · ()) ?_
      clear same
      induction arguments generalizing others with
      | nil =>
          rw [List.map_nil, List.map_eq_nil_iff] at terms
          rw [terms]
      | cons head rest inner =>
          cases others with
          | nil => cases terms
          | cons otherHead otherRest =>
              rw [List.map_cons, List.map_cons, List.cons.injEq] at terms
              rw [List.forall_mem_cons] at induction
              rw [List.flatMap_cons, List.flatMap_cons] at names
              have split := List.append_inj names (length_argumentNames_of_toTerm terms.1.symm)
              rw [List.map_cons, List.map_cons, induction.1 terms.1.symm split.1,
                inner induction.2 otherRest terms.2 split.2]
  | function name argument result first second =>
      rcases toTerm_eq_function same.symm with ⟨_, _, _, rfl, arguments, results⟩
      rw [argumentNames_function, argumentNames_function, List.cons.injEq] at names
      have split := List.append_inj names.2 (length_argumentNames_of_toTerm arguments.symm)
      rw [shape_function, shape_function, names.1, first arguments.symm split.1,
        second results.symm split.2]

namespace Search

variable {σ : Type} {setting : Setting σ} {memory : Memory σ} {bound : Int64}
  {env : Environment}

theorem accepts_subtype_iff (blank : memory.Blank) (nonnegative : 0 ≤ bound.toInt)
    (trapFree : env.TrapFree bound) {left right : RefinedType}
    (leftCheckable : left.Checkable env bound []) (rightCheckable : right.Checkable env bound [])
    (names : left.argumentNames = right.argumentNames) :
    Accepts setting memory bound (.subtype env left right) ↔
      left.shape = right.shape ∧ UsableAs (env.Possible bound) left right := by
  have iff_of_shape (same : left.shape = right.shape) :
      Accepts setting memory bound (.subtype env left right) ↔
        UsableAs (env.Possible bound) left right :=
    accepts_iff blank (Constraint.amountsTo_subtype left right nonnegative trapFree same
      leftCheckable rightCheckable)
  constructor
  · intro accepts
    have same := shape_eq_of_toTerm
      (toTerm_eq_of_accepts leftCheckable.rigid rightCheckable.rigid accepts) names
    exact ⟨same, (iff_of_shape same).mp accepts⟩
  · rintro ⟨same, usable⟩
    exact (iff_of_shape same).mpr usable

/-- On types without unknowns and free variables whose arguments have the same names, and in
a scope that does not speak of a value, checked subtyping is reflexive and transitive. -/
theorem accepts_refl_and_trans (blank : memory.Blank) (nonnegative : 0 ≤ bound.toInt)
    (valueFree : env.ValueFree) (trapFree : env.TrapFree bound) :
    (∀ t : RefinedType, t.Checkable env bound [] →
      Accepts setting memory bound (.subtype env t t)) ∧
    ∀ first second third : RefinedType, first.Checkable env bound [] →
      second.Checkable env bound [] → third.Checkable env bound [] →
        first.argumentNames = second.argumentNames →
          second.argumentNames = third.argumentNames →
            Accepts setting memory bound (.subtype env first second) →
              Accepts setting memory bound (.subtype env second third) →
                Accepts setting memory bound (.subtype env first third) := by
  constructor
  · intro t checkable
    exact (accepts_subtype_iff blank nonnegative trapFree checkable checkable rfl).mpr
      ⟨rfl, .refl _ t⟩
  · intro first second third firstCheckable secondCheckable thirdCheckable names furtherNames
      early late
    rw [accepts_subtype_iff blank nonnegative trapFree firstCheckable secondCheckable names]
      at early
    rw [accepts_subtype_iff blank nonnegative trapFree secondCheckable thirdCheckable
      furtherNames] at late
    rw [accepts_subtype_iff blank nonnegative trapFree firstCheckable thirdCheckable
      (names.trans furtherNames)]
    have proper : valueName ∉ second.argumentNames := fun member =>
      (secondCheckable.fresh valueName member).1 rfl
    exact ⟨early.1.trans late.1, early.2.trans (valueFree.impersonal bound)
      firstCheckable.proper secondCheckable.proper thirdCheckable.proper proper late.2⟩

section Numbers

def numberMap (argument result : Formula) : RefinedType :=
  .function "x" (.atom .int argument) (.atom .int result)

private theorem checkable_numberMap {argument result : Formula}
    (argumentProper : argument.Proper 2 [(valueName, .int)])
    (resultProper : result.Proper 2 [(valueName, .int), ("x", .int)]) :
    (numberMap argument result).Checkable numberScope 2 [] where
  rigid := nofun
  proper := proper_function.mpr ⟨proper_scalar.mpr ⟨argumentProper, nofun⟩,
    proper_scalar.mpr ⟨resultProper, nofun⟩⟩
  distinct := List.nodup_singleton "x"
  fresh := List.forall_mem_singleton.mpr ⟨by decide, by decide +kernel, by decide +kernel⟩

private theorem valueFree_numberScope : numberScope.ValueFree where
  assumptions := nofun
  refutations := nofun
  symbols name type member := by
    have alone : (numberScope.symbolsOfArity 0).entries =
        [("y", .mono (.atom .int positive))] := rfl
    rw [alone, List.mem_singleton, Prod.mk.injEq, Schema.mono.injEq] at member
    rw [member.1, member.2]
    exact ⟨by decide, rfl⟩
  ghosts := nofun

private theorem trapFree_numberScope : numberScope.TrapFree 2 where
  positives fact member values _ := by
    have alone : (numberScope.positives ∅).toList = [(Formula.var .int "y").atLeast (.int 1)] := by
      decide +kernel
    rw [← SortedSet.mem_toList, alone, List.mem_singleton] at member
    rw [member]
    exact ⟨_, rfl⟩
  negatives fact member := nomatch Environment.mem_negatives.mp member

/-- A function that returns its argument can be used on the number in scope alone, since
it can be used on all positive numbers, and those have the number in scope among them. -/
theorem numberMaps_accepted :
    Accepts brief blank 2 (.subtype numberScope (numberMap positive positive)
      (numberMap positive positive)) ∧
    Accepts brief blank 2 (.subtype numberScope (numberMap .top (equalTo "x"))
      (numberMap (equalTo "y") positive)) := by
  have nonnegative : 0 ≤ (2 : Int64).toInt := by decide
  have blankMemory : blank.Blank := ⟨rfl, rfl, rfl⟩
  have everything : (numberMap .top (equalTo "x")).Checkable numberScope 2 [] :=
    checkable_numberMap ⟨rfl, by decide, fun _ _ => hasValue_top⟩
      ⟨rfl, by decide, fun _ _ => ⟨_, rfl⟩⟩
  have positives : (numberMap positive positive).Checkable numberScope 2 [] :=
    checkable_numberMap ⟨rfl, by decide, fun _ _ => ⟨_, rfl⟩⟩
      ⟨rfl, by decide, fun _ _ => ⟨_, rfl⟩⟩
  have same : (numberMap (equalTo "y") positive).Checkable numberScope 2 [] :=
    checkable_numberMap ⟨rfl, by decide, fun _ _ => ⟨_, rfl⟩⟩
      ⟨rfl, by decide, fun _ _ => ⟨_, rfl⟩⟩
  have preorder := @accepts_refl_and_trans _ brief _ _ _ blankMemory nonnegative
    valueFree_numberScope trapFree_numberScope
  refine ⟨preorder.1 _ positives, preorder.2 _ _ _ everything positives same rfl rfl ?_ ?_⟩
  · exact ⟨10, by decide +kernel, by decide +kernel⟩
  · exact ⟨10, by decide +kernel, by decide +kernel⟩

end Numbers

end Search

end Inhabit
