import Inhabit.Proofs.Simplification.Passes
import Inhabit.Proofs.Simplification.Steps

/-! What simplification keeps true of an assignment and of the constraints of a state.

Two steps of rewriting bring something new: decomposing a constraint brings its parts, and
binding a variable brings a copy. A property that the two preserve holds of whatever
simplification leaves behind. -/

namespace Inhabit

/-- The steps of rewriting preserve these properties of assignments and of constraints. -/
structure Persists (onAssignment : TypeAssignment → Prop)
    (onConstraint : Constraint → Prop) : Prop where
  parts : ∀ {assignment constraint parts}, onAssignment assignment →
    onConstraint constraint → constraint.Step assignment (.decompose parts) →
      ∀ part ∈ parts, onConstraint part
  copy : ∀ {assignment constraint name type}, onAssignment assignment →
    onConstraint constraint → constraint.Step assignment (.bind name type) →
      ∀ names, let copy := ((constraint.env.freshCopy type).run names).1
        onAssignment (assignment.insert name copy) ∧
          onConstraint (.wellFormed constraint.env copy)

namespace SearchState

/-- What a state has that an earlier one has not has the properties. The qualifiers are
those of the earlier one. -/
structure Adds (onAssignment : TypeAssignment → Prop) (onConstraint : Constraint → Prop)
    (before after : SearchState) : Prop where
  assignment : onAssignment after.assignment
  qualifiers : after.qualifiers = before.qualifiers
  pending : ∀ constraint ∈ after.pending,
    constraint ∈ before.pending ∨ onConstraint constraint
  simple : ∀ constraint ∈ after.simple,
    constraint ∈ before.simple ∨ onConstraint constraint

structure Meets (onAssignment : TypeAssignment → Prop) (onConstraint : Constraint → Prop)
    (state : SearchState) : Prop where
  assignment : onAssignment state.assignment
  pending : ∀ constraint ∈ state.pending, onConstraint constraint
  simple : ∀ constraint ∈ state.simple, onConstraint constraint

variable {onAssignment : TypeAssignment → Prop} {onConstraint : Constraint → Prop}
  {before middle after : SearchState}

theorem Adds.trans (first : before.Adds onAssignment onConstraint middle)
    (second : middle.Adds onAssignment onConstraint after) :
    before.Adds onAssignment onConstraint after where
  assignment := second.assignment
  qualifiers := second.qualifiers.trans first.qualifiers
  pending constraint member :=
    (second.pending constraint member).elim (first.pending constraint) .inr
  simple constraint member :=
    (second.simple constraint member).elim (first.simple constraint) .inr

theorem Adds.meets (adds : before.Adds onAssignment onConstraint after)
    (meets : before.Meets onAssignment onConstraint) :
    after.Meets onAssignment onConstraint where
  assignment := adds.assignment
  pending constraint member :=
    (adds.pending constraint member).elim (meets.pending constraint) id
  simple constraint member :=
    (adds.simple constraint member).elim (meets.simple constraint) id

theorem adds_addPending {constraints : List Constraint}
    (assigned : onAssignment before.assignment)
    (all : ∀ constraint ∈ constraints, onConstraint constraint) :
    before.Adds onAssignment onConstraint (before.addPending constraints) where
  assignment := assigned
  qualifiers := rfl
  pending constraint member := (List.mem_append.mp member).imp_right (all constraint)
  simple _ := .inl

theorem adds_addSimple {constraints : List Constraint}
    (assigned : onAssignment before.assignment)
    (all : ∀ constraint ∈ constraints, onConstraint constraint) :
    before.Adds onAssignment onConstraint (before.addSimple constraints) where
  assignment := assigned
  qualifiers := rfl
  pending _ := .inl
  simple constraint member := (List.mem_append.mp member).imp_right (all constraint)

end SearchState

section Preservation

variable {onAssignment : TypeAssignment → Prop} {onConstraint : Constraint → Prop}

theorem Rewrites.adds (persists : Persists onAssignment onConstraint)
    {before after : Workspace} {constraints : List Constraint}
    {result : Except Failure (List Constraint)}
    (rewrites : Rewrites before constraints result after)
    (assigned : onAssignment before.state.assignment)
    (all : ∀ constraint ∈ constraints, onConstraint constraint) :
    before.state.Adds onAssignment onConstraint after.state ∧
      ∀ deferred, result = .ok deferred →
        ∀ constraint ∈ deferred, onConstraint constraint := by
  induction rewrites with
  | done =>
      exact ⟨⟨assigned, rfl, fun _ => .inl, fun _ => .inl⟩,
        by rintro _ ⟨⟩; exact List.forall_mem_nil _⟩
  | mismatch | occurs => exact ⟨⟨assigned, rfl, fun _ => .inl, fun _ => .inl⟩, nofun⟩
  | @decompose before after constraint parts rest result rewriting _ induction =>
      have step := Constraint.step_of_rewriting rewriting
      rcases List.forall_mem_cons.mp all with ⟨whole, others⟩
      exact induction assigned
        (List.forall_mem_append.mpr ⟨persists.parts assigned whole step, others⟩)
  | @bind before after constraint rest result name type rewriting _ _ induction =>
      have step := Constraint.step_of_rewriting rewriting
      rcases persists.copy assigned (all constraint List.mem_cons_self) step before.names with
        ⟨bound, wellFormed⟩
      have copied : before.state.Adds onAssignment onConstraint
          (before.bind constraint.env name type).state :=
        ⟨bound, rfl, (SearchState.adds_addPending assigned
          (List.forall_mem_singleton.mpr wellFormed)).pending, fun _ => .inl⟩
      exact (induction bound all).imp_left copied.trans
  | keep _ _ induction =>
      rcases List.forall_mem_cons.mp all with ⟨kept, others⟩
      have listed := SearchState.adds_addSimple assigned (List.forall_mem_singleton.mpr kept)
      exact (induction assigned others).imp_left listed.trans
  | drop _ _ induction => exact induction assigned (List.forall_mem_cons.mp all).2
  | @defer before after constraint rest result _ _ induction =>
      rcases List.forall_mem_cons.mp all with ⟨aside, others⟩
      rcases induction assigned others with ⟨adds, deferred⟩
      refine ⟨adds, ?_⟩
      cases result with
      | error _ => exact nofun
      | ok inner =>
          rintro _ ⟨⟩
          exact List.forall_mem_cons.mpr ⟨aside, deferred inner rfl⟩

theorem Simplifies.adds (persists : Persists onAssignment onConstraint)
    {before after : Workspace} {passes : Nat} {result : Except Failure Unit}
    (simplifies : Simplifies before passes result after)
    (assigned : onAssignment before.state.assignment)
    (pending : ∀ constraint ∈ before.state.pending, onConstraint constraint) :
    before.state.Adds onAssignment onConstraint after.state := by
  -- A pass takes the pending constraints out of the state, so all that it leaves are new.
  have taken {workspace : Workspace} {later : SearchState}
      (adds : workspace.clearPending.state.Adds onAssignment onConstraint later) :
      workspace.state.Adds onAssignment onConstraint later :=
    ⟨adds.assignment, adds.qualifiers,
      fun constraint member => (adds.pending constraint member).imp_left nofun, adds.simple⟩
  induction simplifies with
  | fail rewrites => exact taken (rewrites.adds persists assigned pending).1
  | last rewrites _ =>
      rcases rewrites.adds persists assigned pending with ⟨adds, deferred⟩
      exact taken (adds.trans (SearchState.adds_addSimple adds.assignment (deferred _ rfl)))
  | next rewrites _ _ induction =>
      rcases rewrites.adds persists assigned pending with ⟨adds, deferred⟩
      have next := adds.trans (SearchState.adds_addPending adds.assignment (deferred _ rfl))
      refine (taken next).trans (induction next.assignment ?_)
      exact fun constraint member => (next.pending constraint member).resolve_left nofun

theorem Simplifies.meets (persists : Persists onAssignment onConstraint)
    {before after : Workspace} {passes : Nat} {result : Except Failure Unit}
    (simplifies : Simplifies before passes result after)
    (meets : before.state.Meets onAssignment onConstraint) :
    after.state.Meets onAssignment onConstraint :=
  (simplifies.adds persists meets.assignment meets.pending).meets meets

end Preservation

end Inhabit
