import Inhabit.Proofs.Naming.Scopes
import Inhabit.Proofs.Search.Lowering
import Inhabit.Proofs.Simplification.Rewrites
import Inhabit.Proofs.Simplification.Steps

/-! Subtypings that are simplified and lowered side by side, step for step. Nothing is
bound on the way, so the assignment stays empty throughout. -/

namespace Inhabit

/-- The same is to be done with two constraints, and related ones arise from it. Where
the first part of each has no hope, the rest does not matter. -/
inductive Lockstep (related : Constraint → Constraint → Prop) :
    Rewriting → Rewriting → Prop where
  | decompose {parts others : List Constraint} (all : List.Forall₂ related parts others) :
      Lockstep related (.decompose parts) (.decompose others)
  | blocked {part other : Constraint} (rest others : List Constraint)
      (mismatch : part.rewriting ∅ = .mismatch) (otherMismatch : other.rewriting ∅ = .mismatch) :
      Lockstep related (.decompose (part :: rest)) (.decompose (other :: others))
  | keep : Lockstep related .keep .keep
  | mismatch : Lockstep related .mismatch .mismatch

def Kept (related : Constraint → Constraint → Prop) (constraint other : Constraint) : Prop :=
  related constraint other ∧ constraint.rewriting ∅ = .keep ∧ other.rewriting ∅ = .keep

inductive SameEnd {α : Type} (value other : α) :
    Except Interrupt α → Except Interrupt α → Prop where
  | succeed : SameEnd value other (.ok value) (.ok other)
  | fail (interrupt otherInterrupt : Interrupt) :
      SameEnd value other (.error interrupt) (.error otherInterrupt)

theorem SameEnd.succeeds_iff {α : Type} {value other : α} {end₁ end₂ : Except Interrupt α}
    (ends : SameEnd value other end₁ end₂) : end₂ = .ok other ↔ end₁ = .ok value := by
  cases ends with
  | succeed => exact iff_of_true rfl rfl
  | fail _ _ => exact iff_of_false nofun nofun

theorem Workspace.addSimple_addSimple (workspace : Workspace)
    (first second : List Constraint) :
    (workspace.addSimple first).addSimple second = workspace.addSimple (first ++ second) := by
  simp [addSimple, SearchState.addSimple]

theorem Workspace.addSimple_nil (workspace : Workspace) : workspace.addSimple [] = workspace := by
  simp [addSimple, SearchState.addSimple]

structure RunsAlike (related : Constraint → Constraint → Prop) (before other : Workspace)
    (run otherRun : Except Interrupt (List Constraint) × Workspace) : Prop where
  kept : ∃ kept otherKept, List.Forall₂ (Kept related) kept otherKept ∧
    run.2 = before.addSimple kept ∧ otherRun.2 = other.addSimple otherKept
  ends : SameEnd [] [] run.1 otherRun.1

theorem RunsAlike.idle {related : Constraint → Constraint → Prop} {before other : Workspace}
    {result otherResult : Except Interrupt (List Constraint)}
    (ends : SameEnd [] [] result otherResult) :
    RunsAlike related before other (result, before) (otherResult, other) :=
  ⟨⟨[], [], .nil, before.addSimple_nil.symm, other.addSimple_nil.symm⟩, ends⟩

theorem rewriteAll_lockstep {related : Constraint → Constraint → Prop}
    (advance : ∀ constraint other, related constraint other →
      Lockstep related (constraint.rewriting ∅) (other.rewriting ∅))
    (steps : Nat) {constraints others : List Constraint}
    (all : List.Forall₂ related constraints others) {before otherBefore : Workspace}
    (unassigned : before.state.assignment = ∅)
    (otherUnassigned : otherBefore.state.assignment = ∅) :
    RunsAlike related before otherBefore ((rewriteAll steps constraints).run.run before)
      ((rewriteAll steps others).run.run otherBefore) := by
  induction steps generalizing constraints others before otherBefore with
  | zero =>
      cases all with
      | nil => exact .idle .succeed
      | cons _ _ => exact .idle (.fail _ _)
  | succ steps induction =>
      cases all with
      | nil => exact .idle .succeed
      | @cons constraint other rest otherRest head tail =>
          have step := advance constraint other head
          generalize rewriting : constraint.rewriting ∅ = action at step
          generalize otherRewriting : other.rewriting ∅ = otherAction at step
          have kept : action = .keep → otherAction = .keep → Kept related constraint other :=
            fun isKeep otherIsKeep =>
              ⟨head, rewriting.trans isKeep, otherRewriting.trans otherIsKeep⟩
          -- Nothing is assigned on the way, so both go on by the empty assignment.
          rw [← unassigned] at rewriting
          rw [← otherUnassigned] at otherRewriting
          cases step with
          | decompose parts =>
              rw [run_rewriteAll_of_decompose steps rest rewriting,
                run_rewriteAll_of_decompose steps otherRest otherRewriting]
              exact induction (List.rel_append parts tail) unassigned otherUnassigned
          | blocked _ _ mismatch otherMismatch =>
              rw [run_rewriteAll_of_decompose steps rest rewriting,
                run_rewriteAll_of_decompose steps otherRest otherRewriting]
              rw [← unassigned] at mismatch
              rw [← otherUnassigned] at otherMismatch
              -- Both fail at the first part, or run out of steps before it.
              cases steps with
              | zero => exact .idle (.fail _ _)
              | succ steps =>
                  rw [List.cons_append, List.cons_append,
                    run_rewriteAll_of_mismatch steps _ mismatch,
                    run_rewriteAll_of_mismatch steps _ otherMismatch]
                  exact .idle (.fail _ _)
          | keep =>
              rw [run_rewriteAll_of_keep steps rest rewriting,
                run_rewriteAll_of_keep steps otherRest otherRewriting]
              have inner : RunsAlike related (before.addSimple [constraint])
                  (otherBefore.addSimple [other]) _ _ :=
                induction tail unassigned otherUnassigned
              rcases inner with ⟨⟨after, otherAfter, all, equal, otherEqual⟩, ends⟩
              rw [Workspace.addSimple_addSimple] at equal otherEqual
              exact ⟨⟨constraint :: after, other :: otherAfter,
                .cons (kept rfl rfl) all, equal, otherEqual⟩, ends⟩
          | mismatch =>
              rw [run_rewriteAll_of_mismatch steps rest rewriting,
                run_rewriteAll_of_mismatch steps otherRest otherRewriting]
              exact .idle (.fail _ _)

/-! ## Lowering -/

namespace Constraint

def IsSubtype (constraint : Constraint) : Prop :=
  ∃ env left right, constraint = .subtype env left right

def clauses : Constraint → List HornClause
  | .subtype env (.scalar _ _ left) (.scalar _ _ right) =>
      if right.isTrue then [] else [Search.subtypeClause env ∅ left right]
  | _ => []

end Constraint

def Memory.addClauses (memory : Memory σ) (clauses : List HornClause) : Memory σ :=
  { memory with state := { memory.state with clauses := memory.state.clauses ++ clauses } }

theorem Memory.addClauses_nil (memory : Memory σ) : memory.addClauses [] = memory := by
  simp [addClauses]

theorem Memory.addClauses_addClauses (memory : Memory σ) (first second : List HornClause) :
    (memory.addClauses first).addClauses second = memory.addClauses (first ++ second) := by
  simp [addClauses]

namespace Search

/-- Simplify one constraint, and lower everything that is atomic by then. -/
def reduce (constraint : Constraint) : Search σ Unit := do
  let _ ← rewrite (simplify · constraint)
  lowerAll

variable {setting : Setting σ}

theorem run_lower_atoms {env : Environment} {base : BaseType} {left right : Formula}
    (leftRigid : env.freeVar? (.atom base left) = none)
    (rightRigid : env.freeVar? (.atom base right) = none) (setting : Setting σ)
    {memory : Memory σ} {assignment : TypeAssignment}
    (assigned : memory.state.assignment = assignment) :
    lower (.subtype env (.atom base left) (.atom base right)) setting memory =
      (.ok (), memory.addClauses
        (if (assignment.applyFormula right).isTrue then []
        else [subtypeClause env assignment (assignment.applyFormula left)
          (assignment.applyFormula right)])) := by
  rw [lower, run_bind]
  change (if _ then _ else _ : Search σ Unit) setting memory = _
  simp only [leftRigid, rightRigid, assigned, Option.isSome_none, Bool.or_self,
    Bool.false_eq_true, if_false, if_true]
  by_cases trivial : (assignment.applyFormula right).isTrue = true
  · rw [if_pos trivial, if_pos trivial, memory.addClauses_nil]
    rfl
  · rw [if_neg trivial, if_neg trivial]
    rfl

theorem lower_of_kept {constraint : Constraint} (isSubtype : constraint.IsSubtype)
    (kept : constraint.rewriting ∅ = .keep) (setting : Setting σ) {memory : Memory σ}
    (unassigned : memory.state.assignment = ∅) :
    lower constraint setting memory = (.ok (), memory.addClauses constraint.clauses) := by
  rcases isSubtype with ⟨env, left, right, rfl⟩
  have step := Constraint.step_of_rewriting kept
  cases step with
  | @keepAtoms _ base first second leftRigid rightRigid =>
      have lowered := run_lower_atoms leftRigid rightRigid setting unassigned
      rwa [TypeAssignment.applyFormula_empty, TypeAssignment.applyFormula_empty] at lowered

theorem forM_lower_of_kept {constraints : List Constraint}
    (all : ∀ constraint ∈ constraints,
      constraint.IsSubtype ∧ constraint.rewriting ∅ = .keep)
    (setting : Setting σ) {memory : Memory σ} (unassigned : memory.state.assignment = ∅) :
    constraints.forM lower setting memory =
      (.ok (), memory.addClauses (constraints.flatMap Constraint.clauses)) := by
  induction constraints generalizing memory with
  | nil => exact congrArg _ memory.addClauses_nil.symm
  | cons constraint rest induction =>
      rw [List.forall_mem_cons] at all
      change (lower constraint >>= fun _ => rest.forM lower) setting memory = _
      rw [run_bind, lower_of_kept all.1.1 all.1.2 setting unassigned]
      have remaining : rest.forM lower setting (memory.addClauses constraint.clauses) = _ :=
        induction all.2 unassigned
      dsimp only
      rw [remaining, memory.addClauses_addClauses, List.flatMap_cons]

def Unassigned (memory : Memory σ) : Prop :=
  memory.state.assignment = ∅

theorem lowerAll_append {kept : List Constraint}
    (all : ∀ constraint ∈ kept, constraint.IsSubtype ∧ constraint.rewriting ∅ = .keep)
    (setting : Setting σ) {memory : Memory σ} (unassigned : Unassigned memory) :
    lowerAll setting { memory with state := memory.state.addSimple kept } =
      match lowerAll setting memory with
      | (.ok (), after) => (.ok (), after.addClauses (kept.flatMap Constraint.clauses))
      | (.error interrupt, after) => (.error interrupt, after) := by
  let cleared : Memory σ := { memory with state := { memory.state with simple := [] } }
  have both : lowerAll setting { memory with state := memory.state.addSimple kept } =
      ((memory.state.simple ++ kept).forM lower : Search σ Unit) setting cleared := rfl
  have first : lowerAll setting memory = memory.state.simple.forM lower setting cleared := rfl
  have stays : Unassigned (memory.state.simple.forM lower setting cleared).2 :=
    (assignment_lowerAll setting memory).trans unassigned
  have append : ((memory.state.simple ++ kept).forM lower : Search σ Unit) =
      (do memory.state.simple.forM lower; kept.forM lower) := List.forM_append
  rw [both, first, append, run_bind]
  revert stays
  rcases memory.state.simple.forM lower setting cleared with ⟨result, after⟩
  intro stays
  cases result with
  | ok _ => exact forM_lower_of_kept all setting stays
  | error _ => rfl

section Reduce

variable {constraint : Constraint} {memory : Memory σ} {kept : List Constraint}

theorem reduce_of_ok {deferred : List Constraint}
    (run : (rewriteAll setting.steps [constraint]).run.run ⟨memory.names, memory.state⟩ =
      (.ok deferred, Workspace.addSimple ⟨memory.names, memory.state⟩ kept)) :
    reduce constraint setting memory =
      lowerAll setting { memory with state := memory.state.addSimple kept } := by
  have run : rewriteAll setting.steps [constraint] ⟨memory.names, memory.state⟩ = _ := run
  rw [reduce, run_bind, rewrite, simplify, ExceptT.run, run]
  rfl

theorem reduce_of_error {interrupt : Interrupt}
    (run : (rewriteAll setting.steps [constraint]).run.run ⟨memory.names, memory.state⟩ =
      (.error interrupt, Workspace.addSimple ⟨memory.names, memory.state⟩ kept)) :
    reduce constraint setting memory =
      (.error interrupt, { memory with state := memory.state.addSimple kept }) := by
  have run : rewriteAll setting.steps [constraint] ⟨memory.names, memory.state⟩ = _ := run
  rw [reduce, run_bind, rewrite, simplify, ExceptT.run, run]
  rfl

end Reduce

/-- Whatever is related throughout ends alike, and makes clauses of related subtypings. -/
theorem reduce_lockstep {related : Constraint → Constraint → Prop}
    (advance : ∀ constraint other, related constraint other →
      Lockstep related (constraint.rewriting ∅) (other.rewriting ∅))
    (subtypes : ∀ constraint other, related constraint other →
      constraint.IsSubtype ∧ other.IsSubtype)
    (setting : Setting σ) {memory : Memory σ} (unassigned : Unassigned memory)
    {constraint other : Constraint} (isRelated : related constraint other) :
    SameEnd () () (reduce constraint setting memory).1 (reduce other setting memory).1 ∧
      ∃ clauses kept otherKept, List.Forall₂ (Kept related) kept otherKept ∧
        (reduce constraint setting memory).2.state.clauses =
          clauses ++ kept.flatMap Constraint.clauses ∧
        (reduce other setting memory).2.state.clauses =
          clauses ++ otherKept.flatMap Constraint.clauses := by
  have runs : RunsAlike related ⟨memory.names, memory.state⟩ ⟨memory.names, memory.state⟩ _ _ :=
    rewriteAll_lockstep advance setting.steps (.cons isRelated .nil) unassigned unassigned
  rcases runs with ⟨⟨kept, otherKept, all, after, otherAfter⟩, ends⟩
  generalize run : (rewriteAll setting.steps [constraint]).run.run _ = first at after ends
  generalize otherRun : (rewriteAll setting.steps [other]).run.run _ = second at otherAfter ends
  rcases first with ⟨result, workspace⟩
  rcases second with ⟨otherResult, otherWorkspace⟩
  subst after otherAfter
  cases ends with
  | fail interrupt otherInterrupt =>
      rw [reduce_of_error run, reduce_of_error otherRun]
      exact ⟨.fail _ _, memory.state.clauses, [], [], .nil, (List.append_nil _).symm,
        (List.append_nil _).symm⟩
  | succeed =>
      have atoms : (∀ atom ∈ kept, atom.IsSubtype ∧ atom.rewriting ∅ = .keep) ∧
          ∀ atom ∈ otherKept, atom.IsSubtype ∧ atom.rewriting ∅ = .keep := by
        clear run otherRun
        induction all with
        | nil => simp
        | cons head _ induction =>
            have both := subtypes _ _ head.1
            rw [List.forall_mem_cons, List.forall_mem_cons]
            exact ⟨⟨⟨both.1, head.2.1⟩, induction.1⟩, ⟨both.2, head.2.2⟩, induction.2⟩
      rw [reduce_of_ok run, reduce_of_ok otherRun, lowerAll_append atoms.1 setting unassigned,
        lowerAll_append atoms.2 setting unassigned]
      rcases lowerAll setting memory with ⟨lowered, after⟩
      cases lowered with
      | ok _ => exact ⟨.succeed, after.state.clauses, kept, otherKept, all, rfl, rfl⟩
      | error interrupt =>
          exact ⟨.fail _ _, after.state.clauses, [], [], .nil, (List.append_nil _).symm,
            (List.append_nil _).symm⟩

end Search

end Inhabit
