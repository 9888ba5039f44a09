import Inhabit.Proofs.Simplification.Preservation
import Inhabit.Proofs.Simplification.Unifiers

/-! What a run that succeeds tells about the constraints it started from: they are
solved by every substitution that respects the assignment it ends with and equates
the variables it leaves deferred. -/

namespace Inhabit

namespace Constraint

variable {assignment : TypeAssignment} {constraint : Constraint}

def variablePair? : Constraint → Option (String × String)
  | .subtype env left right =>
      match env.freeVar? left, env.freeVar? right with
      | some first, some second => some (first, second)
      | _, _ => none
  | .wellFormed _ _ | .wellFormedGuard _ _ => none

theorem exists_of_variablePair? {first second : String}
    (pair : constraint.variablePair? = some (first, second)) :
    ∃ env left right, constraint = .subtype env left right ∧
      env.freeVar? left = some first ∧ env.freeVar? right = some second := by
  cases constraint with
  | wellFormed | wellFormedGuard => cases pair
  | subtype env left right =>
      cases isLeft : env.freeVar? left with
      | none => simp [variablePair?, isLeft] at pair
      | some x =>
          cases isRight : env.freeVar? right with
          | none => simp [variablePair?, isLeft, isRight] at pair
          | some y =>
              simp only [variablePair?, isLeft, isRight, Option.some_inj,
                Prod.mk.injEq] at pair
              obtain ⟨rfl, rfl⟩ := pair
              exact ⟨env, left, right, rfl, isLeft, isRight⟩

theorem holdsUnder_iff_of_variablePair? {first second : String}
    (pair : constraint.variablePair? = some (first, second))
    (unifier : String → TypeTerm) :
    constraint.HoldsUnder unifier ↔ unifier first = unifier second := by
  obtain ⟨env, left, right, rfl, isLeft, isRight⟩ := exists_of_variablePair? pair
  obtain ⟨⟨_, rfl⟩, _⟩ := Environment.freeVar?_eq_some.mp isLeft
  obtain ⟨⟨_, rfl⟩, _⟩ := Environment.freeVar?_eq_some.mp isRight
  exact .rfl

theorem isBound_of_variablePair? {first second : String}
    (pair : constraint.variablePair? = some (first, second)) :
    constraint.env.isBound first = false ∧ constraint.env.isBound second = false := by
  obtain ⟨env, left, right, rfl, isLeft, isRight⟩ := exists_of_variablePair? pair
  exact ⟨(Environment.freeVar?_eq_some.mp isLeft).2,
    (Environment.freeVar?_eq_some.mp isRight).2⟩

theorem Step.holdsUnder_of_keep (step : constraint.Step assignment .keep)
    (unifier : String → TypeTerm) : constraint.HoldsUnder unifier := by
  cases step with
  | keepAtoms _ _ =>
      exact congrArg _ (Skeleton.toTerm_scalar_congr _ rfl _ _)
  | keepAtom | keepGuard => trivial

theorem Step.variablePair?_of_keep (step : constraint.Step assignment .keep) :
    constraint.variablePair? = none := by
  cases step with
  | keepAtoms leftRigid _ => rw [variablePair?, leftRigid]
  | keepAtom | keepGuard => rfl

theorem Step.holdsUnder_of_drop (step : constraint.Step assignment .drop)
    (unifier : String → TypeTerm) : constraint.HoldsUnder unifier := by
  cases step with
  | @drop env left right name isLeft isRight =>
      have pair : (subtype env left right).variablePair? = some (name, name) := by
        rw [variablePair?, isLeft, isRight]
      exact (holdsUnder_iff_of_variablePair? pair unifier).mpr rfl

theorem Step.variablePair?_of_defer (step : constraint.Step assignment .defer) :
    ∃ first second, constraint.variablePair? = some (first, second) ∧
      assignment.find? first = none ∧ assignment.find? second = none := by
  cases step with
  | defer isLeft isRight firstOpen secondOpen =>
      exact ⟨_, _, by rw [variablePair?, isLeft, isRight], firstOpen, secondOpen⟩

end Constraint

/-! ## One pass -/

namespace Rewrites

variable {before after : Workspace} {constraints deferred : List Constraint}
  {result : Except Failure (List Constraint)}

theorem scopes (rewrites : Rewrites before constraints result after)
    (property : (String → Bool) → Prop)
    (holds : ∀ constraint ∈ constraints, property constraint.env.isBound) :
    (∀ constraint ∈ after.state.pending, constraint ∈ before.state.pending ∨
      property constraint.env.isBound) ∧
    ∀ deferred, result = .ok deferred →
      ∀ constraint ∈ deferred, property constraint.env.isBound := by
  have persists : Persists (fun _ => True)
      fun constraint => property constraint.env.isBound := by
    refine ⟨fun _ whole step part member => ?_, fun _ whole _ _ => ⟨trivial, whole⟩⟩
    rw [step.parts_isBound part member]
    exact whole
  exact (rewrites.adds persists trivial holds).imp_left SearchState.Adds.pending

theorem size_le (rewrites : Rewrites before constraints result after) :
    before.state.assignment.size ≤ after.state.assignment.size := by
  induction rewrites with
  | done | mismatch | occurs => exact Nat.le_refl _
  | decompose _ _ induction | keep _ _ induction | drop _ _ induction
  | defer _ _ induction => exact induction
  | @bind before after constraint rest result name type rewriting _ _ induction =>
      have step := Constraint.step_of_rewriting rewriting
      have grown := TypeAssignment.size_insert step.binds.isOpen
        (before.copyOf constraint.env type)
      exact (Nat.le_of_lt (grown ▸ Nat.lt_succ_self _)).trans induction

/-- Where no variable is bound, nothing becomes pending, and what is deferred would be
deferred again. -/
theorem unchanged_of_size_eq (rewrites : Rewrites before constraints result after)
    (same : after.state.assignment.size = before.state.assignment.size) :
    after.state.assignment = before.state.assignment ∧
      after.state.pending = before.state.pending ∧
      ∀ deferred, result = .ok deferred → ∀ constraint ∈ deferred,
        constraint.rewriting before.state.assignment = .defer := by
  induction rewrites with
  | done => exact ⟨rfl, rfl, by rintro _ ⟨⟩; exact List.forall_mem_nil _⟩
  | decompose _ _ induction | keep _ _ induction | drop _ _ induction =>
      exact induction same
  | @bind before after constraint rest result name type rewriting _ continues _ =>
      have step := Constraint.step_of_rewriting rewriting
      have grown := TypeAssignment.size_insert step.binds.isOpen
        (before.copyOf constraint.env type)
      have further : (before.bind constraint.env name type).state.assignment.size ≤
          after.state.assignment.size := continues.size_le
      exact absurd same (Nat.ne_of_gt (Nat.lt_of_lt_of_le
        (grown ▸ Nat.lt_succ_self _) further))
  | @defer before after constraint rest result rewriting _ induction =>
      obtain ⟨unchanged, pending, again⟩ := induction same
      refine ⟨unchanged, pending, ?_⟩
      cases result with
      | error _ => exact nofun
      | ok inner =>
          rintro _ ⟨⟩
          exact List.forall_mem_cons.mpr ⟨rewriting, again inner rfl⟩
  | mismatch | occurs => exact ⟨rfl, rfl, nofun⟩

/-- What is deferred where no variable is bound relates unassigned variables. -/
theorem deferred_of_size_eq (rewrites : Rewrites before constraints (.ok deferred) after)
    (same : after.state.assignment.size = before.state.assignment.size) :
    ∀ constraint ∈ deferred, ∃ first second,
      constraint.variablePair? = some (first, second) ∧
      after.state.assignment.find? first = none ∧
      after.state.assignment.find? second = none := by
  obtain ⟨unchanged, _, again⟩ := rewrites.unchanged_of_size_eq same
  intro constraint member
  have step := Constraint.step_of_rewriting (again deferred rfl constraint member)
  rw [unchanged]
  exact step.variablePair?_of_defer

theorem exists_kept (rewrites : Rewrites before constraints result after) :
    ∃ kept, after.state.simple = before.state.simple ++ kept ∧
      ∀ constraint ∈ kept, ∃ assignment, constraint.Step assignment .keep := by
  induction rewrites with
  | done | mismatch | occurs =>
      exact ⟨[], (List.append_nil _).symm, List.forall_mem_nil _⟩
  | decompose _ _ induction | bind _ _ _ induction | drop _ _ induction
  | defer _ _ induction => exact induction
  | @keep before after constraint rest result rewriting _ induction =>
      have step := Constraint.step_of_rewriting rewriting
      obtain ⟨kept, equal, atomic⟩ := induction
      refine ⟨constraint :: kept, ?_, List.forall_mem_cons.mpr ⟨⟨_, step⟩, atomic⟩⟩
      rw [equal]
      exact List.append_assoc before.state.simple [constraint] kept

/-- What a run in a workspace in order leaves behind, and what solves the
constraints. -/
structure Sound (before : Workspace) (constraints : List Constraint)
    (result : Except Failure (List Constraint)) (after : Workspace) : Prop where
  advances : before.names.issued ≤ after.names.issued
  tame : after.Tame
  pending : ∀ constraint ∈ after.state.pending,
    constraint ∈ before.state.pending ∨ constraint.Tame after.names
  deferred : ∀ deferred, result = .ok deferred →
    ∀ constraint ∈ deferred, constraint.Tame after.names
  solves : ∀ deferred, result = .ok deferred → ∀ unifier,
    after.state.assignment.Respects unifier →
    (∀ constraint ∈ deferred, constraint.HoldsUnder unifier) →
    before.state.assignment.Respects unifier ∧
      ∀ constraint ∈ constraints, constraint.HoldsUnder unifier

theorem sound (rewrites : Rewrites before constraints result after)
    (tame : before.Tame) (all : ∀ constraint ∈ constraints, constraint.Tame before.names) :
    Sound before constraints result after := by
  -- By induction on the run: what solves all that a step leaves solves what it was
  -- about.
  induction rewrites with
  | done =>
      exact ⟨Nat.le_refl _, tame, fun _ member => .inl member,
        by rintro _ ⟨⟩; exact List.forall_mem_nil _,
        fun _ _ _ respects _ => ⟨respects, List.forall_mem_nil _⟩⟩
  | @decompose before after constraint parts rest result rewriting _ induction =>
      have step := Constraint.step_of_rewriting rewriting
      have partsTame := tame.hereditary.inherits.parts step (all constraint List.mem_cons_self)
      have inner := induction tame fun part member => by
        rcases List.mem_append.mp member with member | member
        · exact partsTame part member
        · exact all part (List.mem_cons_of_mem _ member)
      refine ⟨inner.advances, inner.tame, inner.pending, inner.deferred,
        fun deferred equal unifier respects holds => ?_⟩
      obtain ⟨respects, holds⟩ := inner.solves deferred equal unifier respects holds
      refine ⟨respects, fun other member => ?_⟩
      rcases List.mem_cons.mp member with rfl | member
      · exact (step.holdsUnder_iff tame.acyclic respects).mpr fun part member =>
          holds part (List.mem_append_left _ member)
      · exact holds other (List.mem_append_right _ member)
  | @bind before after constraint rest result name type rewriting absent _ induction =>
      have step := Constraint.step_of_rewriting rewriting
      have binds := step.binds
      have advances := before.issued_le_bind constraint.env name type
      have bindTame := tame.bind_of_step step (all constraint List.mem_cons_self) absent
      have inner := induction bindTame fun other member =>
        (all other member).later advances
      refine ⟨advances.trans inner.advances, inner.tame, fun other member => ?_,
        inner.deferred, fun deferred equal unifier respects holds => ?_⟩
      · rcases inner.pending other member with member | otherTame
        · rcases List.mem_append.mp member with member | member
          · exact .inl member
          · rw [List.mem_singleton] at member
            rw [member]
            refine .inr fun t isCopy => ?_
            rw [List.mem_singleton.mp isCopy]
            exact (Workspace.tame_copyOf constraint.env name
              (all constraint List.mem_cons_self type binds.member)).later inner.advances
        · exact .inr otherTame
      · obtain ⟨respects, holds⟩ := inner.solves deferred equal unifier respects holds
        exact ⟨((TypeAssignment.respects_insert_iff binds.isOpen).mp respects).1, holds⟩
  | @keep before after constraint rest result rewriting _ induction =>
      have step := Constraint.step_of_rewriting rewriting
      have inner := induction ⟨tame.acyclic, tame.keys, tame.types⟩ fun other member =>
        all other (List.mem_cons_of_mem _ member)
      refine ⟨inner.advances, inner.tame, inner.pending, inner.deferred,
        fun deferred equal unifier respects holds => ?_⟩
      obtain ⟨respects, holds⟩ := inner.solves deferred equal unifier respects holds
      exact ⟨respects, List.forall_mem_cons.mpr ⟨step.holdsUnder_of_keep unifier, holds⟩⟩
  | @drop before after constraint rest result rewriting _ induction =>
      have step := Constraint.step_of_rewriting rewriting
      have inner := induction tame fun other member =>
        all other (List.mem_cons_of_mem _ member)
      refine ⟨inner.advances, inner.tame, inner.pending, inner.deferred,
        fun deferred equal unifier respects holds => ?_⟩
      obtain ⟨respects, holds⟩ := inner.solves deferred equal unifier respects holds
      exact ⟨respects, List.forall_mem_cons.mpr ⟨step.holdsUnder_of_drop unifier, holds⟩⟩
  | @defer before after constraint rest result rewriting _ induction =>
      have inner := induction tame fun other member =>
        all other (List.mem_cons_of_mem _ member)
      cases result with
      | error _ =>
          exact ⟨inner.advances, inner.tame, inner.pending, nofun, nofun⟩
      | ok deferred =>
          refine ⟨inner.advances, inner.tame, inner.pending, ?_, ?_⟩
          · rintro _ ⟨⟩
            exact List.forall_mem_cons.mpr
              ⟨(all constraint List.mem_cons_self).later inner.advances,
                inner.deferred deferred rfl⟩
          · rintro _ ⟨⟩ unifier respects holds
            have parts := List.forall_mem_cons.mp holds
            obtain ⟨respects, holdsRest⟩ :=
              inner.solves deferred rfl unifier respects parts.2
            exact ⟨respects, List.forall_mem_cons.mpr ⟨parts.1, holdsRest⟩⟩
  | mismatch | occurs =>
      exact ⟨Nat.le_refl _, tame, fun _ member => .inl member, nofun, nofun⟩

end Rewrites

/-! ## All passes -/

namespace Simplifies

variable {before after : Workspace} {passes : Nat}

structure Sound (before after : Workspace) (added : List Constraint) : Prop where
  tame : after.Tame
  simple : after.state.simple = before.state.simple ++ added
  pairs : ∀ constraint ∈ added, ∀ first second,
    constraint.variablePair? = some (first, second) →
      after.state.assignment.find? first = none ∧
      after.state.assignment.find? second = none
  scopes : ∀ property : (String → Bool) → Prop,
    (∀ constraint ∈ before.state.pending, property constraint.env.isBound) →
    ∀ constraint ∈ added, constraint.variablePair? ≠ none →
      property constraint.env.isBound
  solves : ∀ unifier, after.state.assignment.Respects unifier →
    (∀ constraint ∈ added, ∀ first second,
      constraint.variablePair? = some (first, second) → unifier first = unifier second) →
    before.state.assignment.Respects unifier ∧
      ∀ constraint ∈ before.state.pending, constraint.HoldsUnder unifier

theorem sound (simplifies : Simplifies before passes (.ok ()) after)
    (tame : before.Tame)
    (all : ∀ constraint ∈ before.state.pending, constraint.Tame before.names) :
    ∃ added, Sound before after added := by
  generalize ended : Except.ok (ε := Failure) () = result at simplifies
  induction simplifies with
  | fail => cases ended
  | @last before after deferred rewrites same =>
      have pass := rewrites.sound ⟨tame.acyclic, tame.keys, tame.types⟩ all
      obtain ⟨kept, simple, atomic⟩ := rewrites.exists_kept
      have pairs := rewrites.deferred_of_size_eq same
      refine ⟨kept ++ deferred, ⟨pass.tame.acyclic, pass.tame.keys, pass.tame.types⟩,
        ?_, ?_, ?_, ?_⟩
      · change after.state.simple ++ deferred = _
        rw [simple]
        exact List.append_assoc _ _ _
      · intro constraint member first second pair
        rcases List.mem_append.mp member with member | member
        · obtain ⟨_, step⟩ := atomic constraint member
          cases step.variablePair?_of_keep.symm.trans pair
        · obtain ⟨x, y, pair', firstOpen, secondOpen⟩ := pairs constraint member
          rw [pair'] at pair
          cases pair
          exact ⟨firstOpen, secondOpen⟩
      · intro property holds constraint member isPair
        rcases List.mem_append.mp member with member | member
        · obtain ⟨_, step⟩ := atomic constraint member
          exact absurd step.variablePair?_of_keep isPair
        · exact (rewrites.scopes property holds).2 deferred rfl constraint member
      · intro unifier respects equates
        refine pass.solves deferred rfl unifier respects fun constraint member => ?_
        obtain ⟨first, second, pair, _, _⟩ := pairs constraint member
        exact (Constraint.holdsUnder_iff_of_variablePair? pair unifier).mpr
          (equates constraint (List.mem_append_right _ member) first second pair)
  | @next before middle after deferred passes result rewrites grown _ induction =>
      have pass := rewrites.sound ⟨tame.acyclic, tame.keys, tame.types⟩ all
      obtain ⟨kept, simple, atomic⟩ := rewrites.exists_kept
      -- The next pass starts with what this one deferred and with the copies that it
      -- brought.
      obtain ⟨added, rest⟩ := induction
        ⟨pass.tame.acyclic, pass.tame.keys, pass.tame.types⟩
        (fun constraint member => by
          rcases List.mem_append.mp member with member | member
          · exact (pass.pending constraint member).elim nofun id
          · exact pass.deferred deferred rfl constraint member) ended
      refine ⟨kept ++ added, rest.tame, ?_, ?_, ?_, ?_⟩
      · rw [rest.simple]
        change middle.state.simple ++ added = _
        rw [simple]
        exact List.append_assoc _ _ _
      · intro constraint member first second pair
        rcases List.mem_append.mp member with member | member
        · obtain ⟨_, step⟩ := atomic constraint member
          cases step.variablePair?_of_keep.symm.trans pair
        · exact rest.pairs constraint member first second pair
      · intro property holds constraint member isPair
        rcases List.mem_append.mp member with member | member
        · obtain ⟨_, step⟩ := atomic constraint member
          exact absurd step.variablePair?_of_keep isPair
        · have scopes := rewrites.scopes property holds
          refine rest.scopes property (fun other member => ?_) constraint member isPair
          rcases List.mem_append.mp member with member | member
          · exact (scopes.1 other member).elim nofun id
          · exact scopes.2 deferred rfl other member
      · intro unifier respects equates
        obtain ⟨respects, holds⟩ := rest.solves unifier respects
          fun constraint member => equates constraint (List.mem_append_right _ member)
        exact pass.solves deferred rfl unifier respects fun constraint member =>
          holds constraint (List.mem_append_right _ member)

theorem find?_of_isBound {result : Except Failure Unit}
    (simplifies : Simplifies before passes result after) {name : String}
    (bound : ∀ constraint ∈ before.state.pending, constraint.env.isBound name)
    (isOpen : before.state.assignment.find? name = none) :
    after.state.assignment.find? name = none := by
  have persists : Persists (fun assignment => assignment.find? name = none)
      fun constraint => constraint.env.isBound name := by
    refine ⟨fun _ whole step part member => ?_, fun isOpen whole step _ => ⟨?_, whole⟩⟩
    · rw [step.parts_isBound part member]
      exact whole
    · rw [SortedMap.find?_insert, if_neg]
      · exact isOpen
      · rintro rfl
        have free := step.binds.free
        rw [whole] at free
        cases free
  exact (simplifies.adds persists isOpen bound).assignment

end Simplifies

end Inhabit
