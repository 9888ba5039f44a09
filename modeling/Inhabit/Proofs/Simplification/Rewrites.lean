import Inhabit.Solving.Simplification

/-! Complete runs of rewriting, without a grant of steps.

A run ends well or with a failure; one that goes on for ever is no run. The
function comes to the end of a run whenever it is granted enough steps, and
whatever it returns other than that the steps did not suffice is the end of a
run. -/

namespace Inhabit

namespace Workspace

def copyOf (workspace : Workspace) (env : Environment) (type : RefinedType) :
    RefinedType :=
  ((env.freshCopy type).run workspace.names).1

def bind (workspace : Workspace) (env : Environment) (name : String)
    (type : RefinedType) : Workspace where
  names := ((env.freshCopy type).run workspace.names).2
  state := { workspace.state with
    assignment := workspace.state.assignment.insert name (workspace.copyOf env type)
    pending := workspace.state.pending ++
      [.wellFormed env (workspace.copyOf env type)] }

theorem assignment_bind (workspace : Workspace) (env : Environment) (name : String)
    (type : RefinedType) : (workspace.bind env name type).state.assignment =
      workspace.state.assignment.insert name (workspace.copyOf env type) := rfl

def addSimple (workspace : Workspace) (constraints : List Constraint) : Workspace :=
  { workspace with state := workspace.state.addSimple constraints }

def addPending (workspace : Workspace) (constraints : List Constraint) : Workspace :=
  { workspace with state := workspace.state.addPending constraints }

def clearPending (workspace : Workspace) : Workspace :=
  { workspace with state := { workspace.state with pending := [] } }

end Workspace

/-- Rewriting a list of constraints in a workspace ends with the constraints that
it defers, or a failure, and leaves a workspace behind. -/
inductive Rewrites : Workspace → List Constraint → Except Failure (List Constraint) →
    Workspace → Prop where
  | done (workspace : Workspace) : Rewrites workspace [] (.ok []) workspace
  | decompose {before after : Workspace} {constraint : Constraint}
      {parts rest : List Constraint} {result : Except Failure (List Constraint)}
      (rewriting : constraint.rewriting before.state.assignment = .decompose parts)
      (continues : Rewrites before (parts ++ rest) result after) :
      Rewrites before (constraint :: rest) result after
  | bind {before after : Workspace} {constraint : Constraint}
      {rest : List Constraint} {result : Except Failure (List Constraint)}
      {name : String} {type : RefinedType}
      (rewriting : constraint.rewriting before.state.assignment = .bind name type)
      (absent : before.state.assignment.occursIn name type = false)
      (continues : Rewrites (before.bind constraint.env name type)
        (constraint :: rest) result after) :
      Rewrites before (constraint :: rest) result after
  | keep {before after : Workspace} {constraint : Constraint}
      {rest : List Constraint} {result : Except Failure (List Constraint)}
      (rewriting : constraint.rewriting before.state.assignment = .keep)
      (continues : Rewrites (before.addSimple [constraint]) rest result after) :
      Rewrites before (constraint :: rest) result after
  | defer {before after : Workspace} {constraint : Constraint}
      {rest : List Constraint} {result : Except Failure (List Constraint)}
      (rewriting : constraint.rewriting before.state.assignment = .defer)
      (continues : Rewrites before rest result after) :
      Rewrites before (constraint :: rest) (result.map (constraint :: ·)) after
  | drop {before after : Workspace} {constraint : Constraint}
      {rest : List Constraint} {result : Except Failure (List Constraint)}
      (rewriting : constraint.rewriting before.state.assignment = .drop)
      (continues : Rewrites before rest result after) :
      Rewrites before (constraint :: rest) result after
  | mismatch {workspace : Workspace} {constraint : Constraint}
      (rest : List Constraint)
      (rewriting : constraint.rewriting workspace.state.assignment = .mismatch) :
      Rewrites workspace (constraint :: rest)
        (.error ⟨.shapeMismatch constraint, none⟩) workspace
  | occurs {workspace : Workspace} {constraint : Constraint}
      {name : String} {type : RefinedType} (rest : List Constraint)
      (rewriting : constraint.rewriting workspace.state.assignment = .bind name type)
      (present : workspace.state.assignment.occursIn name type = true) :
      Rewrites workspace (constraint :: rest)
        (.error ⟨.occursCheck name (workspace.state.assignment.apply type), none⟩)
        workspace

/-! ## Single steps of the function -/

namespace Rewrite

variable {α β : Type} {computation : Rewrite α} {next : α → Rewrite β}
  {before middle : Workspace}

theorem run_bind_of_ok {value : α}
    (ran : computation.run.run before = (.ok value, middle)) :
    (computation >>= next).run.run before = (next value).run.run middle := by
  rw [ExceptT.run_bind, StateT.run_bind, ran]
  rfl

theorem run_bind_of_error {interrupt : Interrupt}
    (ran : computation.run.run before = (.error interrupt, middle)) :
    (computation >>= next).run.run before = (.error interrupt, middle) := by
  rw [ExceptT.run_bind, StateT.run_bind, ran]
  rfl

theorem run_bind_cases {outcome : Except Interrupt β} {after : Workspace}
    (ran : (computation >>= next).run.run before = (outcome, after)) :
    (∃ interrupt, computation.run.run before = (.error interrupt, after) ∧
      outcome = .error interrupt) ∨
    ∃ value middle, computation.run.run before = (.ok value, middle) ∧
      (next value).run.run middle = (outcome, after) := by
  cases first : computation.run.run before with
  | mk result middle =>
      cases result with
      | error interrupt =>
          rw [run_bind_of_error first] at ran
          cases ran
          exact .inl ⟨interrupt, rfl, rfl⟩
      | ok value =>
          rw [run_bind_of_ok first] at ran
          exact .inr ⟨value, middle, rfl, ran⟩

theorem run_get_bind (next : Workspace → Rewrite β) :
    ((do next (← get)) : Rewrite β).run.run before =
      (next before).run.run before := rfl

theorem run_modifyState_bind (change : SearchState → SearchState)
    (next : Unit → Rewrite β) :
    (modifyState change >>= next).run.run before =
      (next ()).run.run { before with state := change before.state } := rfl

end Rewrite

theorem run_rewriteStep (constraint : Constraint) (workspace : Workspace) :
    (rewriteStep constraint).run.run workspace =
      match constraint.rewriting workspace.state.assignment with
      | .decompose parts => (.ok (.decomposed parts), workspace)
      | .keep => (.ok (.simple constraint), workspace)
      | .defer => (.ok (.deferred constraint), workspace)
      | .drop => (.ok .discharged, workspace)
      | .mismatch => (.error (.failed ⟨.shapeMismatch constraint, none⟩), workspace)
      | .bind name type =>
          if workspace.state.assignment.occursIn name type then
            (.error (.failed ⟨.occursCheck name
              (workspace.state.assignment.apply type), none⟩), workspace)
          else
            let copied := (constraint.env.freshCopy type).run workspace.names
            (.ok (.unified constraint (.wellFormed constraint.env copied.1)),
              { names := copied.2
                state := { workspace.state with
                  assignment := workspace.state.assignment.insert name copied.1 } }) := by
  rw [rewriteStep, Rewrite.run_get_bind]
  dsimp only
  cases constraint.rewriting workspace.state.assignment with
  | decompose _ | keep | defer | drop | mismatch => rfl
  | bind name type =>
      dsimp only
      by_cases present : workspace.state.assignment.occursIn name type
      · rw [if_pos present, TypeAssignment.unify, if_pos present]
        rfl
      · rw [if_neg present, TypeAssignment.unify, if_neg present]
        rfl

section Steps

variable {workspace : Workspace} {constraint : Constraint}

theorem run_rewriteAll_of_decompose {parts : List Constraint} (steps : Nat)
    (rest : List Constraint)
    (rewriting : constraint.rewriting workspace.state.assignment = .decompose parts) :
    (rewriteAll (steps + 1) (constraint :: rest)).run.run workspace =
      (rewriteAll steps (parts ++ rest)).run.run workspace := by
  have step := run_rewriteStep constraint workspace
  rw [rewriting] at step
  rw [rewriteAll, Rewrite.run_bind_of_ok step]

theorem run_rewriteAll_of_bind {name : String} {type : RefinedType} (steps : Nat)
    (rest : List Constraint)
    (rewriting : constraint.rewriting workspace.state.assignment = .bind name type)
    (absent : workspace.state.assignment.occursIn name type = false) :
    (rewriteAll (steps + 1) (constraint :: rest)).run.run workspace =
      (rewriteAll steps (constraint :: rest)).run.run
        (workspace.bind constraint.env name type) := by
  have step := run_rewriteStep constraint workspace
  rw [rewriting] at step
  dsimp only at step
  rw [if_neg (by simp [absent])] at step
  rw [rewriteAll, Rewrite.run_bind_of_ok step]
  rfl

theorem run_rewriteAll_of_keep (steps : Nat) (rest : List Constraint)
    (rewriting : constraint.rewriting workspace.state.assignment = .keep) :
    (rewriteAll (steps + 1) (constraint :: rest)).run.run workspace =
      (rewriteAll steps rest).run.run (workspace.addSimple [constraint]) := by
  have step := run_rewriteStep constraint workspace
  rw [rewriting] at step
  rw [rewriteAll, Rewrite.run_bind_of_ok step]
  rfl

theorem run_rewriteAll_of_drop (steps : Nat) (rest : List Constraint)
    (rewriting : constraint.rewriting workspace.state.assignment = .drop) :
    (rewriteAll (steps + 1) (constraint :: rest)).run.run workspace =
      (rewriteAll steps rest).run.run workspace := by
  have step := run_rewriteStep constraint workspace
  rw [rewriting] at step
  rw [rewriteAll, Rewrite.run_bind_of_ok step]

theorem run_rewriteAll_of_defer (steps : Nat) (rest : List Constraint)
    (rewriting : constraint.rewriting workspace.state.assignment = .defer) :
    (rewriteAll (steps + 1) (constraint :: rest)).run.run workspace =
      (((rewriteAll steps rest).run.run workspace).1.map (constraint :: ·),
        ((rewriteAll steps rest).run.run workspace).2) := by
  have step := run_rewriteStep constraint workspace
  rw [rewriting] at step
  rw [rewriteAll, Rewrite.run_bind_of_ok step]
  cases ran : (rewriteAll steps rest).run.run workspace with
  | mk result after =>
      cases result with
      | ok deferred => exact Rewrite.run_bind_of_ok ran
      | error interrupt => exact Rewrite.run_bind_of_error ran

theorem run_rewriteAll_of_mismatch (steps : Nat) (rest : List Constraint)
    (rewriting : constraint.rewriting workspace.state.assignment = .mismatch) :
    (rewriteAll (steps + 1) (constraint :: rest)).run.run workspace =
      (.error (.failed ⟨.shapeMismatch constraint, none⟩), workspace) := by
  have step := run_rewriteStep constraint workspace
  rw [rewriting] at step
  rw [rewriteAll, Rewrite.run_bind_of_error step]

theorem run_rewriteAll_of_occurs {name : String} {type : RefinedType} (steps : Nat)
    (rest : List Constraint)
    (rewriting : constraint.rewriting workspace.state.assignment = .bind name type)
    (present : workspace.state.assignment.occursIn name type = true) :
    (rewriteAll (steps + 1) (constraint :: rest)).run.run workspace =
      (.error (.failed ⟨.occursCheck name (workspace.state.assignment.apply type),
        none⟩), workspace) := by
  have step := run_rewriteStep constraint workspace
  rw [rewriting] at step
  dsimp only at step
  rw [if_pos present] at step
  rw [rewriteAll, Rewrite.run_bind_of_error step]

end Steps

/-! ## Runs and grants of steps -/

private theorem enough_succ {holds holdsNext : Nat → Prop}
    (eventually : ∃ enough, ∀ steps, enough ≤ steps → holds steps)
    (step : ∀ steps, holds steps → holdsNext (steps + 1)) :
    ∃ enough, ∀ steps, enough ≤ steps → holdsNext steps := by
  obtain ⟨enough, eventually⟩ := eventually
  refine ⟨enough + 1, fun steps sufficient => ?_⟩
  obtain ⟨fewer, rfl⟩ := Nat.exists_eq_add_of_le' (Nat.one_le_of_lt sufficient)
  exact step fewer (eventually fewer (Nat.le_of_succ_le_succ sufficient))

theorem Rewrites.run_rewriteAll {before after : Workspace}
    {constraints : List Constraint} {result : Except Failure (List Constraint)}
    (rewrites : Rewrites before constraints result after) :
    ∃ enough, ∀ steps, enough ≤ steps →
      (rewriteAll steps constraints).run.run before =
        (result.mapError .failed, after) := by
  induction rewrites with
  | done workspace => exact ⟨0, fun steps _ => by cases steps <;> rfl⟩
  | decompose rewriting _ induction =>
      exact enough_succ induction fun steps ran =>
        (run_rewriteAll_of_decompose steps _ rewriting).trans ran
  | bind rewriting absent _ induction =>
      exact enough_succ induction fun steps ran =>
        (run_rewriteAll_of_bind steps _ rewriting absent).trans ran
  | keep rewriting _ induction =>
      exact enough_succ induction fun steps ran =>
        (run_rewriteAll_of_keep steps _ rewriting).trans ran
  | @defer _ _ _ _ result rewriting _ induction =>
      refine enough_succ induction fun steps ran => ?_
      rw [run_rewriteAll_of_defer steps _ rewriting, ran]
      cases result <;> rfl
  | drop rewriting _ induction =>
      exact enough_succ induction fun steps ran =>
        (run_rewriteAll_of_drop steps _ rewriting).trans ran
  | mismatch rest rewriting =>
      have always : ∃ enough, ∀ steps, enough ≤ steps → True := ⟨0, fun _ _ => trivial⟩
      exact enough_succ always fun steps _ =>
        run_rewriteAll_of_mismatch steps rest rewriting
  | occurs rest rewriting present =>
      have always : ∃ enough, ∀ steps, enough ≤ steps → True := ⟨0, fun _ _ => trivial⟩
      exact enough_succ always fun steps _ =>
        run_rewriteAll_of_occurs steps rest rewriting present

/-- Unless the steps do not suffice, what the function does is a run. -/
theorem rewrites_of_run {steps : Nat} {before after : Workspace}
    {constraints : List Constraint} {outcome : Except Interrupt (List Constraint)}
    (ran : (rewriteAll steps constraints).run.run before = (outcome, after))
    (finished : outcome ≠ .error .unfinished) :
    ∃ result, outcome = result.mapError .failed ∧
      Rewrites before constraints result after := by
  induction steps generalizing constraints before outcome with
  | zero =>
      cases constraints with
      | nil =>
          cases ran
          exact ⟨.ok [], rfl, .done _⟩
      | cons _ _ =>
          cases ran
          exact absurd rfl finished
  | succ steps induction =>
      cases constraints with
      | nil =>
          cases ran
          exact ⟨.ok [], rfl, .done _⟩
      | cons constraint rest =>
          cases rewriting : constraint.rewriting before.state.assignment with
          | decompose parts =>
              rw [run_rewriteAll_of_decompose steps rest rewriting] at ran
              obtain ⟨result, equal, rewrites⟩ := induction ran finished
              exact ⟨result, equal, .decompose rewriting rewrites⟩
          | bind name type =>
              cases occurs : before.state.assignment.occursIn name type with
              | false =>
                  rw [run_rewriteAll_of_bind steps rest rewriting occurs] at ran
                  obtain ⟨result, equal, rewrites⟩ := induction ran finished
                  exact ⟨result, equal, .bind rewriting occurs rewrites⟩
              | true =>
                  rw [run_rewriteAll_of_occurs steps rest rewriting occurs] at ran
                  cases ran
                  exact ⟨.error _, rfl, .occurs rest rewriting occurs⟩
          | keep =>
              rw [run_rewriteAll_of_keep steps rest rewriting] at ran
              obtain ⟨result, equal, rewrites⟩ := induction ran finished
              exact ⟨result, equal, .keep rewriting rewrites⟩
          | drop =>
              rw [run_rewriteAll_of_drop steps rest rewriting] at ran
              obtain ⟨result, equal, rewrites⟩ := induction ran finished
              exact ⟨result, equal, .drop rewriting rewrites⟩
          | mismatch =>
              rw [run_rewriteAll_of_mismatch steps rest rewriting] at ran
              cases ran
              exact ⟨.error _, rfl, .mismatch rest rewriting⟩
          | defer =>
              -- The one step that does something with what the rest of the run returns.
              rw [run_rewriteAll_of_defer steps rest rewriting] at ran
              cases inner : (rewriteAll steps rest).run.run before with
              | mk innerOutcome innerAfter =>
                  rw [inner] at ran
                  cases ran
                  obtain ⟨result, equal, rewrites⟩ := induction inner fun unfinished =>
                    finished (by rw [unfinished]; rfl)
                  refine ⟨result.map (constraint :: ·), ?_, .defer rewriting rewrites⟩
                  rw [equal]
                  cases result <;> rfl

theorem Rewrites.unique {before after otherAfter : Workspace}
    {constraints : List Constraint} {result other : Except Failure (List Constraint)}
    (first : Rewrites before constraints result after)
    (second : Rewrites before constraints other otherAfter) :
    result = other ∧ after = otherAfter := by
  obtain ⟨enough, firstRuns⟩ := first.run_rewriteAll
  obtain ⟨otherEnough, secondRuns⟩ := second.run_rewriteAll
  have equal := (firstRuns (max enough otherEnough) (Nat.le_max_left _ _)).symm.trans
    (secondRuns _ (Nat.le_max_right _ _))
  rw [Prod.mk.injEq] at equal
  refine ⟨?_, equal.2⟩
  cases result <;> cases other <;> cases equal.1 <;> rfl

/-! ## Lists put together -/

theorem Rewrites.append {before middle after : Workspace}
    {first second deferred : List Constraint}
    {result : Except Failure (List Constraint)}
    (head : Rewrites before first (.ok deferred) middle)
    (tail : Rewrites middle second result after) :
    Rewrites before (first ++ second) (result.map (deferred ++ ·)) after := by
  generalize outcome : Except.ok deferred = ended at head
  induction head generalizing deferred with
  | done workspace =>
      cases outcome
      have unchanged : result.map ([] ++ ·) = result := by cases result <;> rfl
      rwa [unchanged]
  | decompose rewriting _ induction =>
      exact .decompose rewriting (by simpa using induction tail outcome)
  | bind rewriting absent _ induction =>
      exact .bind rewriting absent (induction tail outcome)
  | keep rewriting _ induction => exact .keep rewriting (induction tail outcome)
  | @defer _ _ constraint _ inner rewriting _ induction =>
      cases inner with
      | error _ => cases outcome
      | ok _ =>
          cases outcome
          have composed := Rewrites.defer rewriting (induction tail rfl)
          cases result <;> exact composed
  | drop rewriting _ induction => exact .drop rewriting (induction tail outcome)
  | mismatch | occurs => cases outcome

theorem Rewrites.append_of_error {before after : Workspace}
    {first : List Constraint} {failure : Failure}
    (head : Rewrites before first (.error failure) after) (second : List Constraint) :
    Rewrites before (first ++ second) (.error failure) after := by
  generalize outcome : Except.error failure = ended at head ⊢
  induction head with
  | done => cases outcome
  | decompose rewriting _ induction =>
      exact .decompose rewriting (by simpa using induction outcome)
  | bind rewriting absent _ induction =>
      exact .bind rewriting absent (induction outcome)
  | keep rewriting _ induction => exact .keep rewriting (induction outcome)
  | @defer _ _ _ _ inner rewriting _ induction =>
      cases inner with
      | ok _ => cases outcome
      | error _ => exact .defer rewriting (induction outcome)
  | drop rewriting _ induction => exact .drop rewriting (induction outcome)
  | mismatch rest rewriting => exact .mismatch _ rewriting
  | occurs rest rewriting present => exact .occurs _ rewriting present

/-- A run over two lists is one over the first and, unless that fails, one over the second. -/
def Splits (before : Workspace) (first second : List Constraint)
    (result : Except Failure (List Constraint)) (after : Workspace) : Prop :=
  (∃ failure, result = .error failure ∧ Rewrites before first (.error failure) after) ∨
  ∃ deferred middle rest, result = Except.map (deferred ++ ·) rest ∧
    Rewrites before first (.ok deferred) middle ∧ Rewrites middle second rest after

namespace Splits

variable {before middle after : Workspace} {first next second : List Constraint}
  {result : Except Failure (List Constraint)}

theorem nil (rewrites : Rewrites before second result after) :
    Splits before [] second result after :=
  .inr ⟨[], before, result, by cases result <;> rfl, .done _, rewrites⟩

theorem step (splits : Splits middle next second result after)
    (step : ∀ {result after}, Rewrites middle next result after →
      Rewrites before first result after) :
    Splits before first second result after := by
  rcases splits with ⟨failure, equal, failed⟩ | ⟨deferred, last, rest, equal, head, tail⟩
  · exact .inl ⟨failure, equal, step failed⟩
  · exact .inr ⟨deferred, last, rest, equal, step head, tail⟩

theorem defer {constraint : Constraint}
    (rewriting : constraint.rewriting before.state.assignment = .defer)
    (splits : Splits before first second result after) :
    Splits before (constraint :: first) second (result.map (constraint :: ·)) after := by
  rcases splits with ⟨failure, rfl, failed⟩ | ⟨deferred, last, rest, rfl, head, tail⟩
  · exact .inl ⟨failure, rfl, .defer rewriting failed⟩
  · refine .inr ⟨constraint :: deferred, last, rest, ?_, .defer rewriting head, tail⟩
    cases rest <;> rfl

end Splits

theorem Rewrites.split {before after : Workspace} {first second : List Constraint}
    {result : Except Failure (List Constraint)}
    (rewrites : Rewrites before (first ++ second) result after) :
    Splits before first second result after := by
  generalize whole : first ++ second = constraints at rewrites
  -- As long as the first list lasts the step is one of its own, and after that the run
  -- is over the second.
  induction rewrites generalizing first with
  | done workspace =>
      obtain ⟨rfl, rfl⟩ := List.append_eq_nil_iff.mp whole
      exact .nil (.done _)
  | decompose rewriting continues induction =>
      cases first with
      | nil =>
          cases whole
          exact .nil (.decompose rewriting continues)
      | cons head tail =>
          cases whole
          exact (induction (List.append_assoc _ tail second)).step (.decompose rewriting)
  | bind rewriting absent continues induction =>
      cases first with
      | nil =>
          cases whole
          exact .nil (.bind rewriting absent continues)
      | cons head tail =>
          cases whole
          exact (induction List.cons_append).step (.bind rewriting absent)
  | keep rewriting continues induction =>
      cases first with
      | nil =>
          cases whole
          exact .nil (.keep rewriting continues)
      | cons head tail =>
          cases whole
          exact (induction rfl).step (.keep rewriting)
  | defer rewriting continues induction =>
      cases first with
      | nil =>
          cases whole
          exact .nil (.defer rewriting continues)
      | cons head tail =>
          cases whole
          exact (induction rfl).defer rewriting
  | drop rewriting continues induction =>
      cases first with
      | nil =>
          cases whole
          exact .nil (.drop rewriting continues)
      | cons head tail =>
          cases whole
          exact (induction rfl).step (.drop rewriting)
  | mismatch rest rewriting =>
      cases first with
      | nil =>
          cases whole
          exact .nil (.mismatch rest rewriting)
      | cons head tail =>
          cases whole
          exact .inl ⟨_, rfl, .mismatch tail rewriting⟩
  | occurs rest rewriting present =>
      cases first with
      | nil =>
          cases whole
          exact .nil (.occurs rest rewriting present)
      | cons head tail =>
          cases whole
          exact .inl ⟨_, rfl, .occurs tail rewriting present⟩

end Inhabit
