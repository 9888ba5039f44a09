import Inhabit.Proofs.Faults.Heads
import Inhabit.Proofs.Search.Solving
import Inhabit.Proofs.Simplification.Unifiers

/-! What rewriting makes of comparisons.

A comparison with a type that ends in a datatype tells what the other type leads to,
once rewriting has come through; and whatever rewriting leaves can be lowered. -/

namespace Inhabit

/-! ## Types that end in a datatype -/

/-- So many arguments precede the datatype, which itself has `count` of them. -/
inductive Skeleton.Ends {ρ : Type} (datatype : String) (count : Nat) :
    (depth : Nat) → Skeleton ρ → Prop where
  | here {arguments : List (Skeleton ρ)} (refinement : ρ)
      (length : arguments.length = count) :
      Ends datatype count 0 (.scalar (.data datatype) arguments refinement)
  | result {depth : Nat} {result : Skeleton ρ} (name : String) (argument : Skeleton ρ)
      (ends : Ends datatype count depth result) :
      Ends datatype count (depth + 1) (.function name argument result)

namespace Skeleton.Ends

variable {datatype : String} {count depth : Nat}

theorem refine {s : Shape} (ends : s.Ends datatype count depth) (weakest : Bool) :
    (s.refine weakest).Ends datatype count depth := by
  induction ends with
  | here _ length =>
      rw [Shape.refine, RefinedType.refineAll_eq_map]
      exact .here _ (by simpa using length)
  | result name argument _ induction =>
      rw [Shape.refine]
      exact .result name _ induction

theorem apply {t : RefinedType} (ends : t.Ends datatype count depth)
    (assignment : TypeAssignment) : (assignment.apply t).Ends datatype count depth := by
  unfold TypeAssignment.apply
  induction ends with
  | here refinement length =>
      rw [RefinedType.instantiate_data]
      exact .here _ (by simpa using length)
  | result name argument _ induction =>
      rw [RefinedType.instantiate]
      exact .result name _ induction

theorem freeVar?_eq_none {t : RefinedType} (ends : t.Ends datatype count depth)
    (env : Environment) : env.freeVar? t = none := by
  cases ends <;> rfl

end Skeleton.Ends

/-! ## Comparisons -/

section Comparisons

variable {before after : TypeAssignment} {datatype : String} {count depth : Nat}
  {env : Environment} {left right : RefinedType}

theorem Constraint.Step.exposes_of_decompose {parts : List Constraint}
    (extended : before.ExtendedBy after)
    (step : (Constraint.subtype env left right).Step before (.decompose parts))
    (ends : right.Ends datatype count depth)
    (later : ∀ env left right depth, .subtype env left right ∈ parts →
      right.Ends datatype count depth →
        after.Exposes datatype count depth left.shape) :
    after.Exposes datatype count depth left.shape := by
  cases step with
  | applySubtype =>
      have applied := later _ _ _ _ List.mem_cons_self (ends.apply before)
      exact applied.of_apply extended
  | decomposeScalars env base firstHead secondHead first second lengths =>
      cases ends with
      | here _ length =>
          rw [Skeleton.shape_scalar]
          refine ⟨0, .here ?_⟩
          rw [List.length_map, List.length_cons, lengths]
          exact length
  | decomposeFunctions env x firstArgument firstResult y secondArgument secondResult =>
      cases ends with
      | result _ _ ends =>
          rintro _ _ _ ⟨⟩
          by_cases scalar : firstArgument.isScalar
          · rw [if_pos scalar] at later
            have renamed :=
              later _ _ _ _ (List.mem_cons_of_mem _ List.mem_cons_self) ends
            rwa [RefinedType.shape_renameVar] at renamed
          · rw [if_neg scalar] at later
            exact later _ _ _ _ (List.mem_cons_of_mem _ List.mem_cons_self) ends

theorem Constraint.Step.exposes_of_keep
    (step : (Constraint.subtype env left right).Step before .keep)
    (ends : right.Ends datatype count depth) :
    after.Exposes datatype count depth left.shape := by
  cases step with
  | keepAtoms =>
      cases ends with
      | here _ length => exact ⟨0, .here length⟩

end Comparisons

section Rewriting

variable {before after : Workspace} {constraints : List Constraint}
  {result : Except Failure (List Constraint)}

theorem Workspace.extendedBy_bind {workspace : Workspace} {constraint : Constraint}
    {name : String} {type : RefinedType} (rewriting : constraint.rewriting
      workspace.state.assignment = .bind name type) :
    workspace.state.assignment.ExtendedBy
      (workspace.bind constraint.env name type).state.assignment := by
  have step := Constraint.step_of_rewriting rewriting
  exact TypeAssignment.extendedBy_insert step.binds.isOpen _

theorem Rewrites.extends (rewrites : Rewrites before constraints result after) :
    before.state.assignment.ExtendedBy after.state.assignment := by
  induction rewrites with
  | done | mismatch | occurs => exact fun _ _ => id
  | decompose _ _ induction | keep _ _ induction | drop _ _ induction
  | defer _ _ induction => exact induction
  | bind rewriting _ _ induction => exact (Workspace.extendedBy_bind rewriting).trans induction

theorem Rewrites.exposes (rewrites : Rewrites before constraints result after)
    {deferred : List Constraint} (ended : result = .ok deferred) {datatype : String}
    {count depth : Nat} {env : Environment} {left right : RefinedType}
    (compared : .subtype env left right ∈ constraints)
    (ends : right.Ends datatype count depth) :
    after.state.assignment.Exposes datatype count depth left.shape := by
  induction rewrites generalizing deferred env left right depth with
  | done => cases compared
  | @decompose before _ constraint _ _ _ rewriting continues induction =>
      rcases List.mem_cons.mp compared with rfl | later
      · have step := Constraint.step_of_rewriting rewriting
        exact step.exposes_of_decompose continues.extends ends
          fun env left right depth part => induction ended (List.mem_append_left _ part)
      · exact induction ended (List.mem_append_right _ later) ends
  | bind _ _ _ induction => exact induction ended compared ends
  | @keep before _ _ _ _ rewriting _ induction =>
      rcases List.mem_cons.mp compared with rfl | later
      · have step := Constraint.step_of_rewriting rewriting
        exact step.exposes_of_keep ends
      · exact induction ended later ends
  | @drop before _ _ _ _ rewriting _ induction =>
      rcases List.mem_cons.mp compared with rfl | later
      · have step := Constraint.step_of_rewriting rewriting
        cases step with
        | drop _ isRight => cases isRight.symm.trans (ends.freeVar?_eq_none env)
      · exact induction ended later ends
  | @defer before _ _ _ inner rewriting _ induction =>
      cases inner with
      | error => cases ended
      | ok =>
          rcases List.mem_cons.mp compared with rfl | later
          · have step := Constraint.step_of_rewriting rewriting
            cases step with
            | defer _ isRight => cases isRight.symm.trans (ends.freeVar?_eq_none env)
          · exact induction rfl later ends
  | mismatch | occurs => cases ended

end Rewriting

section Passes

variable {before after : Workspace} {passes : Nat} {result : Except Failure Unit}

theorem Simplifies.extends (simplifies : Simplifies before passes result after) :
    before.state.assignment.ExtendedBy after.state.assignment := by
  induction simplifies with
  | fail rewrites => exact rewrites.extends
  | last rewrites => exact rewrites.extends
  | next rewrites _ _ induction => exact rewrites.extends.trans induction

theorem Simplifies.exposes (simplifies : Simplifies before passes result after)
    (ended : result = .ok ()) {datatype : String} {count depth : Nat} {env : Environment}
    {left right : RefinedType} (compared : .subtype env left right ∈ before.state.pending)
    (ends : right.Ends datatype count depth) :
    after.state.assignment.Exposes datatype count depth left.shape := by
  cases simplifies with
  | fail => cases ended
  | last rewrites => exact rewrites.exposes rfl compared ends
  | next rewrites _ continues =>
      exact (rewrites.exposes rfl compared ends).mono continues.extends

end Passes

/-! ## What can be lowered -/

/-- Rewriting can make the constraint one that can be lowered, since a guard that it is
about is an unknown. -/
def Constraint.IsLowerable (constraint : Constraint) : Prop :=
  ∀ env guard, constraint = .wellFormedGuard env guard →
    ∃ pending unknown, guard = .unknown pending unknown

theorem Constraint.IsSimple.isLowerable {constraint : Constraint}
    (simple : constraint.IsSimple) : constraint.IsLowerable := by
  rintro env guard rfl
  cases simple with
  | guard _ pending unknown => exact ⟨pending, unknown, rfl⟩

structure SearchState.IsLowerable (state : SearchState) : Prop where
  pending : ∀ constraint ∈ state.pending, constraint.IsLowerable
  simple : ∀ constraint ∈ state.simple, constraint.IsSimple

theorem SearchState.IsLowerable.addPending {state : SearchState}
    (lowerable : state.IsLowerable) {constraints : List Constraint}
    (more : ∀ constraint ∈ constraints, constraint.IsLowerable) :
    (state.addPending constraints).IsLowerable where
  pending := List.forall_mem_append.mpr ⟨lowerable.pending, more⟩
  simple := lowerable.simple

theorem SearchState.IsLowerable.addSimple {state : SearchState}
    (lowerable : state.IsLowerable) {constraints : List Constraint}
    (more : ∀ constraint ∈ constraints, constraint.IsSimple) :
    (state.addSimple constraints).IsLowerable where
  pending := lowerable.pending
  simple := List.forall_mem_append.mpr ⟨lowerable.simple, more⟩

theorem Constraint.Step.isSimple_of_keep {assignment : TypeAssignment}
    {constraint : Constraint} (step : constraint.Step assignment .keep)
    (lowerable : constraint.IsLowerable) : constraint.IsSimple := by
  cases step with
  | keepAtoms => exact .atoms _ _ _ _
  | keepAtom => exact .refinement _ _ _
  | keepGuard env guard =>
      rcases lowerable env guard rfl with ⟨pending, unknown, rfl⟩
      exact .guard env pending unknown

theorem Constraint.Step.isSimple_of_defer {assignment : TypeAssignment}
    {constraint : Constraint} (step : constraint.Step assignment .defer) :
    constraint.IsSimple := by
  cases step with
  | defer isLeft => exact .free (by rw [isLeft]; rfl)

theorem Rewrites.isLowerable {before after : Workspace} {constraints : List Constraint}
    {result : Except Failure (List Constraint)}
    (rewrites : Rewrites before constraints result after) {deferred : List Constraint}
    (ended : result = .ok deferred) (state : before.state.IsLowerable)
    (each : ∀ constraint ∈ constraints, constraint.IsLowerable) :
    after.state.IsLowerable ∧ ∀ constraint ∈ deferred, constraint.IsSimple := by
  induction rewrites generalizing deferred with
  | done =>
      cases ended
      exact ⟨state, List.forall_mem_nil _⟩
  | @decompose before _ constraint parts _ _ rewriting _ induction =>
      have step := Constraint.step_of_rewriting rewriting
      have lowerable : ∀ part ∈ parts, part.IsLowerable := fun part member env guard equal =>
        absurd equal (step.parts_guard part member env guard)
      exact induction ended state
        (List.forall_mem_append.mpr ⟨lowerable, (List.forall_mem_cons.mp each).2⟩)
  | @bind before _ constraint _ _ _ type _ _ _ induction =>
      have wellFormed : (Constraint.wellFormed constraint.env
          (before.copyOf constraint.env type)).IsLowerable := by
        rintro _ _ ⟨⟩
      have more := state.addPending (List.forall_mem_singleton.mpr wellFormed)
      exact induction ended ⟨more.pending, more.simple⟩ each
  | @keep before _ constraint _ _ rewriting _ induction =>
      have step := Constraint.step_of_rewriting rewriting
      rcases List.forall_mem_cons.mp each with ⟨lowerable, others⟩
      apply induction ended _ others
      exact state.addSimple (List.forall_mem_singleton.mpr (step.isSimple_of_keep lowerable))
  | @defer before _ constraint _ inner rewriting _ induction =>
      have step := Constraint.step_of_rewriting rewriting
      cases inner with
      | error => cases ended
      | ok inner =>
          cases ended
          have later := induction rfl state (List.forall_mem_cons.mp each).2
          exact ⟨later.1, List.forall_mem_cons.mpr ⟨step.isSimple_of_defer, later.2⟩⟩
  | drop _ _ induction => exact induction ended state (List.forall_mem_cons.mp each).2
  | mismatch | occurs => cases ended

theorem Simplifies.isLowerable {before after : Workspace} {passes : Nat}
    {result : Except Failure Unit} (simplifies : Simplifies before passes result after)
    (ended : result = .ok ()) (state : before.state.IsLowerable) :
    after.state.IsLowerable := by
  have taken {workspace : Workspace} (state : workspace.state.IsLowerable) :
      workspace.clearPending.state.IsLowerable :=
    ⟨List.forall_mem_nil _, state.simple⟩
  induction simplifies with
  | fail => cases ended
  | last rewrites =>
      have rewritten := rewrites.isLowerable rfl (taken state) state.pending
      exact rewritten.1.addSimple rewritten.2
  | next rewrites _ _ induction =>
      have rewritten := rewrites.isLowerable rfl (taken state) state.pending
      apply induction ended
      exact rewritten.1.addPending fun constraint member =>
        (rewritten.2 constraint member).isLowerable

theorem Lowered.isLowerable {before after : SearchState} {constraint : Constraint}
    (lowered : Lowered before constraint after) (state : before.IsLowerable) :
    after.IsLowerable := by
  cases lowered with
  | @again env left right _ =>
      have subtype : (Constraint.subtype env left right).IsLowerable := by
        rintro _ _ ⟨⟩
      exact state.addPending (List.forall_mem_singleton.mpr subtype)
  | nothing => exact state
  | clause => exact ⟨state.pending, state.simple⟩
  | refinement env base refinement recorded =>
      rw [recorded.only]
      exact ⟨state.pending, state.simple⟩
  | guard env pending unknown recorded =>
      rw [recorded.only]
      exact ⟨state.pending, state.simple⟩

end Inhabit
