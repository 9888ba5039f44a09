import Inhabit.Proofs.Simplification.Rewrites

/-! Complete runs of simplification, pass by pass. -/

namespace Inhabit

/-! ## A pass -/

theorem Rewrites.run_mapM {before after : Workspace} {pending : List Constraint}
    {result : Except Failure (List Constraint)}
    (rewrites : Rewrites before pending result after) :
    ∃ lists : Except Failure (List (List Constraint)),
      result = lists.map List.flatten ∧
      ∃ enough, ∀ steps, enough ≤ steps →
        (pending.mapM (simplify steps)).run.run before =
          (lists.mapError .failed, after) := by
  induction pending generalizing before result with
  | nil =>
      cases rewrites
      exact ⟨.ok [], rfl, 0, fun _ _ => rfl⟩
  | cons constraint rest induction =>
      have whole : Rewrites before ([constraint] ++ rest) result after := rewrites
      rcases whole.split with
        ⟨failure, rfl, failed⟩ | ⟨deferred, middle, inner, rfl, head, tail⟩
      · obtain ⟨enough, runs⟩ := failed.run_rewriteAll
        refine ⟨.error failure, rfl, enough, fun steps sufficient => ?_⟩
        rw [List.mapM_cons]
        exact Rewrite.run_bind_of_error (runs steps sufficient)
      · obtain ⟨enough, runs⟩ := head.run_rewriteAll
        obtain ⟨lists, rfl, enoughRest, runsRest⟩ := induction tail
        refine ⟨lists.map (deferred :: ·), by cases lists <;> rfl,
          max enough enoughRest, fun steps sufficient => ?_⟩
        have ranHead := runs steps (Nat.max_le.mp sufficient).1
        have ranRest := runsRest steps (Nat.max_le.mp sufficient).2
        rw [List.mapM_cons]
        refine (Rewrite.run_bind_of_ok ranHead).trans ?_
        cases lists with
        | error failure => exact Rewrite.run_bind_of_error ranRest
        | ok lists => exact Rewrite.run_bind_of_ok ranRest

theorem rewrites_of_run_mapM {steps : Nat} {before after : Workspace}
    {pending : List Constraint} {outcome : Except Interrupt (List (List Constraint))}
    (ran : (pending.mapM (simplify steps)).run.run before = (outcome, after))
    (finished : outcome ≠ .error .unfinished) :
    ∃ lists : Except Failure (List (List Constraint)),
      outcome = lists.mapError .failed ∧
      Rewrites before pending (lists.map List.flatten) after := by
  induction pending generalizing before outcome with
  | nil =>
      cases ran
      exact ⟨.ok [], rfl, .done _⟩
  | cons constraint rest induction =>
      rw [List.mapM_cons] at ran
      rcases Rewrite.run_bind_cases ran with
        ⟨interrupt, failed, rfl⟩ | ⟨deferred, middle, head, ran⟩
      · obtain ⟨result, equal, rewrites⟩ := rewrites_of_run failed fun unfinished =>
          finished (by cases unfinished; rfl)
        cases result with
        | ok _ => cases equal
        | error failure =>
            cases equal
            exact ⟨.error failure, rfl, rewrites.append_of_error rest⟩
      · obtain ⟨result, equal, rewrites⟩ := rewrites_of_run head nofun
        cases result with
        | error _ => cases equal
        | ok _ =>
            cases equal
            rcases Rewrite.run_bind_cases ran with
              ⟨interrupt, failed, rfl⟩ | ⟨inner, last, tail, ran⟩
            · obtain ⟨lists, equal, rewritesRest⟩ := induction failed fun unfinished =>
                finished (by cases unfinished; rfl)
              cases lists with
              | ok _ => cases equal
              | error failure =>
                  cases equal
                  exact ⟨.error failure, rfl, rewrites.append rewritesRest⟩
            · cases ran
              obtain ⟨lists, equal, rewritesRest⟩ := induction tail nofun
              cases lists with
              | error _ => cases equal
              | ok _ =>
                  cases equal
                  exact ⟨.ok _, rfl, rewrites.append rewritesRest⟩

/-! ## Passes -/

/-- Simplification goes through so many passes, the last of which binds no variable
or fails. -/
inductive Simplifies : Workspace → (passes : Nat) → Except Failure Unit →
    Workspace → Prop where
  | fail {before after : Workspace} {failure : Failure}
      (rewrites : Rewrites before.clearPending before.state.pending
        (.error failure) after) :
      Simplifies before 1 (.error failure) after
  | last {before after : Workspace} {deferred : List Constraint}
      (rewrites : Rewrites before.clearPending before.state.pending
        (.ok deferred) after)
      (same : after.state.assignment.size = before.state.assignment.size) :
      Simplifies before 1 (.ok ()) (after.addSimple deferred)
  | next {before middle after : Workspace} {deferred : List Constraint}
      {passes : Nat} {result : Except Failure Unit}
      (rewrites : Rewrites before.clearPending before.state.pending
        (.ok deferred) middle)
      (grown : middle.state.assignment.size ≠ before.state.assignment.size)
      (continues : Simplifies (middle.addPending deferred) passes result after) :
      Simplifies before (passes + 1) result after

theorem run_pass (steps passes : Nat) (before : Workspace) :
    (simplifyPasses steps (passes + 1)).run.run before =
      (do
        let deferred := (← before.state.pending.mapM (simplify steps)).flatten
        if (← get).state.assignment.size = before.state.assignment.size then
          Rewrite.modifyState (·.addSimple deferred)
          return 1
        else
          Rewrite.modifyState (·.addPending deferred)
          return (← simplifyPasses steps passes) + 1 : Rewrite Nat).run.run
        before.clearPending := rfl

theorem Simplifies.run_simplifyPasses {before after : Workspace} {passes : Nat}
    {result : Except Failure Unit} (simplifies : Simplifies before passes result after) :
    ∃ enough, ∀ steps, enough ≤ steps → ∀ limit, passes ≤ limit →
      (simplifyPasses steps limit).run.run before =
        ((result.map fun _ => passes).mapError .failed, after) := by
  induction simplifies with
  | @fail before after failure rewrites =>
      obtain ⟨lists, equal, enough, runs⟩ := rewrites.run_mapM
      refine ⟨enough, fun steps sufficient limit within => ?_⟩
      obtain ⟨fewer, rfl⟩ := Nat.exists_eq_add_of_le' within
      cases lists with
      | ok _ => cases equal
      | error _ =>
          cases equal
          rw [run_pass, Rewrite.run_bind_of_error (runs steps sufficient)]
          rfl
  | @last before after deferred rewrites same =>
      obtain ⟨lists, equal, enough, runs⟩ := rewrites.run_mapM
      refine ⟨enough, fun steps sufficient limit within => ?_⟩
      obtain ⟨fewer, rfl⟩ := Nat.exists_eq_add_of_le' within
      cases lists with
      | error _ => cases equal
      | ok lists =>
          cases equal
          rw [run_pass, Rewrite.run_bind_of_ok (runs steps sufficient),
            Rewrite.run_get_bind, if_pos same]
          rfl
  | @next before middle after deferred passes result rewrites grown _ induction =>
      obtain ⟨lists, equal, enough, runs⟩ := rewrites.run_mapM
      obtain ⟨enoughRest, runsRest⟩ := induction
      -- This pass and the rest have to get their steps.
      refine ⟨max enough enoughRest, fun steps sufficient limit within => ?_⟩
      obtain ⟨fewer, rfl⟩ := Nat.exists_eq_add_of_le' (Nat.one_le_of_lt within)
      have ranRest := runsRest steps (Nat.max_le.mp sufficient).2 fewer
        (Nat.le_of_succ_le_succ within)
      cases lists with
      | error _ => cases equal
      | ok lists =>
          cases equal
          rw [run_pass, Rewrite.run_bind_of_ok
              (runs steps (Nat.max_le.mp sufficient).1),
            Rewrite.run_get_bind, if_neg grown, Rewrite.run_modifyState_bind]
          cases result with
          | error failure => exact Rewrite.run_bind_of_error ranRest
          | ok _ => exact Rewrite.run_bind_of_ok ranRest

/-- Unless the steps do not suffice, what the function does is a run. -/
theorem simplifies_of_run {steps limit : Nat} {before after : Workspace}
    {outcome : Except Interrupt Nat}
    (ran : (simplifyPasses steps limit).run.run before = (outcome, after))
    (finished : outcome ≠ .error .unfinished) :
    ∃ passes result, Simplifies before passes result after ∧
      outcome = (result.map fun _ => passes).mapError .failed := by
  induction limit generalizing before outcome with
  | zero =>
      cases ran
      exact absurd rfl finished
  | succ limit induction =>
      rw [run_pass] at ran
      rcases Rewrite.run_bind_cases ran with
        ⟨interrupt, failed, rfl⟩ | ⟨lists, middle, pass, ran⟩
      · obtain ⟨result, equal, rewrites⟩ := rewrites_of_run_mapM failed fun unfinished =>
          finished (by cases unfinished; rfl)
        cases result with
        | ok _ => cases equal
        | error failure =>
            cases equal
            exact ⟨1, .error failure, .fail rewrites, rfl⟩
      · obtain ⟨result, equal, rewrites⟩ := rewrites_of_run_mapM pass nofun
        cases result with
        | error _ => cases equal
        | ok _ =>
            cases equal
            rw [Rewrite.run_get_bind] at ran
            by_cases same : middle.state.assignment.size = before.state.assignment.size
            · rw [if_pos same] at ran
              cases ran
              exact ⟨1, .ok (), .last rewrites same, rfl⟩
            · rw [if_neg same, Rewrite.run_modifyState_bind] at ran
              rcases Rewrite.run_bind_cases ran with
                ⟨interrupt, failed, rfl⟩ | ⟨passes, last, tail, ran⟩
              · obtain ⟨passes, result, simplifies, equal⟩ := induction failed finished
                cases result with
                | ok _ => cases equal
                | error failure =>
                    exact ⟨passes + 1, .error failure, .next rewrites same simplifies,
                      equal⟩
              · cases ran
                obtain ⟨_, result, simplifies, equal⟩ := induction tail nofun
                cases result with
                | error _ => cases equal
                | ok _ =>
                    cases equal
                    exact ⟨_, .ok (), .next rewrites same simplifies, rfl⟩

theorem Simplifies.run_simplifyAll {before after : Workspace} {passes : Nat}
    {result : Except Failure Unit} (simplifies : Simplifies before passes result after) :
    ∃ enough, ∀ steps, enough ≤ steps →
      (simplifyAll steps).run.run before =
        ((result.map fun _ => passes).mapError .failed, after) := by
  obtain ⟨enough, runs⟩ := simplifies.run_simplifyPasses
  exact ⟨max enough passes, fun steps sufficient =>
    runs steps (Nat.max_le.mp sufficient).1 steps (Nat.max_le.mp sufficient).2⟩

theorem Simplifies.unique {before after otherAfter : Workspace} {passes otherPasses : Nat}
    {result other : Except Failure Unit}
    (first : Simplifies before passes result after)
    (second : Simplifies before otherPasses other otherAfter) :
    result = other ∧ after = otherAfter := by
  obtain ⟨enough, firstRuns⟩ := first.run_simplifyAll
  obtain ⟨otherEnough, secondRuns⟩ := second.run_simplifyAll
  have equal := (firstRuns (max enough otherEnough) (Nat.le_max_left _ _)).symm.trans
    (secondRuns _ (Nat.le_max_right _ _))
  rw [Prod.mk.injEq] at equal
  refine ⟨?_, equal.2⟩
  cases result <;> cases other <;> cases equal.1 <;> rfl

end Inhabit
