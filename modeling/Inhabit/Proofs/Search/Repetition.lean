import Inhabit.Proofs.Faults.Stuck
import Inhabit.Proofs.Guards.Scopes
import Inhabit.Proofs.Solving.Stepwise

/-! Solving what has been solved.

A solve step leaves only stuck constraints pending, and candidates under which all the
clauses hold that they were checked against. A second step therefore goes in a circle:
simplification puts the stuck constraints aside, lowering makes them pending again, and a
solver that is asked about no new clause gives back what it is handed. -/

namespace Inhabit

/-! ## Stuck constraints -/

section Simplification

variable {workspace : Workspace} {constraints : List Constraint} {steps : Nat}

theorem run_mapM_of_isStuck
    (stuck : ∀ constraint ∈ constraints, constraint.IsStuck workspace.state.assignment) :
    (constraints.mapM (simplify (steps + 1))).run.run workspace =
      (.ok (constraints.map ([·])), workspace) := by
  induction constraints with
  | nil => rfl
  | cons constraint rest induction =>
      rcases List.forall_mem_cons.mp stuck with ⟨first, others⟩
      have deferred := Constraint.rewriting_eq_defer_iff.mpr first
      have head : (simplify (steps + 1) constraint).run.run workspace =
          (.ok [constraint], workspace) := by
        rw [simplify, run_rewriteAll_of_defer steps [] deferred, rewriteAll]
        rfl
      rw [List.mapM_cons, Rewrite.run_bind_of_ok head,
        Rewrite.run_bind_of_ok (induction others)]
      rfl

theorem run_simplifyAll_of_atRest (rests : workspace.state.AtRest) (granted : steps ≠ 0) :
    (simplifyAll steps).run.run workspace = (.ok 1, { workspace with
      state := { workspace.state with
        pending := [], simple := workspace.state.pending } }) := by
  obtain ⟨fewer, rfl⟩ := Nat.exists_eq_succ_of_ne_zero granted
  have pass : (workspace.state.pending.mapM (simplify (fewer + 1))).run.run
      workspace.clearPending = (.ok (workspace.state.pending.map ([·])),
        workspace.clearPending) := run_mapM_of_isStuck rests.pending
  have handed : workspace.state.simple ++ (workspace.state.pending.map ([·])).flatten =
      workspace.state.pending := by
    rw [rests.simple, List.nil_append, ← List.flatMap_def, List.flatMap_singleton']
  have same : workspace.clearPending.state.assignment.size =
      workspace.state.assignment.size := rfl
  rw [simplifyAll, run_pass, Rewrite.run_bind_of_ok pass, Rewrite.run_get_bind, if_pos same,
    Rewrite.run_modifyState_bind]
  change (Except.ok 1, { workspace with state := { workspace.state with
    pending := [], simple := workspace.state.simple ++ _ } }) = _
  rw [handed]

end Simplification

namespace Search

variable {σ : Type} {setting : Setting σ}

theorem run_lower_of_isStuck {assignment : TypeAssignment} {constraint : Constraint}
    (stuck : constraint.IsStuck assignment) (memory : Memory σ) :
    lower constraint setting memory =
      (.ok (), { memory with state := memory.state.addPending [constraint] }) := by
  rcases stuck with ⟨left, right, _, firstFree, _⟩
  have isFree := Environment.freeVar?_eq_some.mpr ⟨⟨left, rfl⟩, firstFree⟩
  unfold lower
  change (if _ then constrain _ else _ : Search σ Unit) setting memory = _
  rw [isFree]
  rfl

theorem run_forM_lower_of_isStuck {assignment : TypeAssignment}
    {constraints : List Constraint}
    (stuck : ∀ constraint ∈ constraints, constraint.IsStuck assignment)
    (memory : Memory σ) :
    constraints.forM lower setting memory =
      (.ok (), { memory with state := memory.state.addPending constraints }) := by
  induction constraints generalizing memory with
  | nil =>
      rw [SearchState.addPending, List.append_nil]
      rfl
  | cons constraint rest induction =>
      rcases List.forall_mem_cons.mp stuck with ⟨first, others⟩
      change (lower constraint >>= fun _ => rest.forM lower) setting memory = _
      rw [run_bind, run_lower_of_isStuck first]
      change rest.forM lower setting _ = _
      rw [induction others]
      simp [SearchState.addPending]

theorem run_lowerAll_of_isStuck {memory : Memory σ} {assignment : TypeAssignment}
    {constraints : List Constraint}
    (stuck : ∀ constraint ∈ constraints, constraint.IsStuck assignment) :
    lowerAll setting { memory with state := { memory.state with
      pending := [], simple := constraints } } =
        (.ok (), { memory with state := { memory.state with
          pending := constraints, simple := [] } }) :=
  run_forM_lower_of_isStuck stuck _

end Search

/-! ## Solvers -/

/-- The solver lets survivors through as they are when there is no new clause, and all
that it remembers of it is that it was asked. -/
def Solver.Reaffirms {σ : Type} (solver : Solver σ) (asked : Program → σ → σ) : Prop :=
  ∀ clauses qualifiers program candidates survivors memory after,
    (solver.refine clauses qualifiers program candidates).run memory =
      (.ok survivors, after) → survivors ≠ [] →
    ∀ next later, (solver.refine [] qualifiers next survivors).run later =
      (.ok survivors, asked next later)

section Bounded

variable {bound : Int64} {clauses : List HornClause} {qualifiers : QualifierMap}

theorem Candidate.Survives.refine_again {candidate survivor : Candidate}
    (survives : candidate.Survives bound clauses qualifiers survivor) :
    survivor.refine bound [] qualifiers = .ok (some survivor) := by
  have covered : survivor.solution.withStrongest qualifiers = survivor.solution :=
    Solution.withStrongest_eq_self fun unknown recorded =>
      survives.weaker.contains unknown (Solution.contains_withStrongest recorded _)
  have weakened : survivor.solution.weaken bound (survivor.validClauses.toList ++ []) =
      .ok (some survivor.solution) := by
    rw [List.append_nil]
    exact Solution.weaken_of_holds survives.holds
  rw [Candidate.refine, covered, weakened]
  rfl

theorem Candidate.refineAll_of_refine {survivors : List Candidate}
    (refines : ∀ survivor ∈ survivors,
      survivor.refine bound clauses qualifiers = .ok (some survivor)) :
    refineAll bound clauses qualifiers survivors = .ok survivors := by
  induction survivors with
  | nil => rfl
  | cons survivor rest induction =>
      rcases List.forall_mem_cons.mp refines with ⟨first, others⟩
      rw [refineAll, first]
      change (do return survivor :: (← refineAll bound clauses qualifiers rest) :
        Except Trap (List Candidate)) = _
      rw [induction others]
      rfl

namespace Solver

theorem reaffirms_bounded (bound : Int64) :
    (bounded bound).Reaffirms fun _ tally => { tally with calls := tally.calls + 1 } := by
  intro clauses qualifiers program candidates survivors tally after ran some next later
  have again : Candidate.refineAll bound [] qualifiers survivors = .ok survivors := by
    apply Candidate.refineAll_of_refine
    intro survivor member
    rcases survives_of_bounded ran survivor member with ⟨_, _, survives⟩
    exact survives.refine_again
  rw [run_bounded again, List.isEmpty_eq_false_iff.mpr some]
  rfl

theorem reaffirms_fixed :
    (fixed true).Reaffirms fun program record => { record with
      batches := record.batches ++ [[]]
      programs := record.programs ++ [program.render] } := by
  intro clauses qualifiers program candidates survivors record after _ _ next later
  have same : survivors.map (·.withValid []) = survivors := List.map_id survivors
  change (Except.ok (survivors.map (·.withValid [])), _) = _
  rw [same]

end Solver

end Bounded

/-! ## Solve steps -/

namespace Search

variable {σ : Type} {setting : Setting σ} {asked : Program → σ → σ} {memory after : Memory σ}

/-- A further solve step changes nothing but what the solver remembers of being asked.
Simplification takes a single pass, which draws no name, and the step ends alike whatever
the sources propose and however the solver prunes, since no space is drawn up. -/
structure Settled (setting : Setting σ) (asked : Program → σ → σ) (memory : Memory σ) :
    Prop where
  pass : (simplifyAll setting.steps).run.run ⟨memory.names, memory.state⟩ =
    (.ok 1, ⟨memory.names, { memory.state with
      pending := [], simple := memory.state.pending }⟩)
  again (program : Program) (sources : QualifierSources)
    (prune : QualifierSpace → Solving σ QualifierSpace) :
    solve program { setting with sources, solver := { setting.solver with prune } } memory =
      (.ok (), { memory with solver := asked program memory.solver })

theorem settled_of_atRest (granted : setting.steps ≠ 0) (rests : memory.state.AtRest)
    (clauses : memory.state.clauses = []) (some : memory.state.candidates ≠ [])
    (reaffirmed : ∀ program, (setting.solver.refine [] memory.state.qualifiers program
      memory.state.candidates).run memory.solver =
        (.ok memory.state.candidates, asked program memory.solver)) :
    Settled setting asked memory := by
  have pass : (simplifyAll setting.steps).run.run ⟨memory.names, memory.state⟩ = _ :=
    run_simplifyAll_of_atRest rests granted
  refine ⟨pass, ?_⟩
  intro program sources prune
  let other : Setting σ := { setting with sources, solver := { setting.solver with prune } }
  let handed : Memory σ := { memory with state := { memory.state with
    pending := [], simple := memory.state.pending } }
  let place (ended : Except Interrupt Nat × Workspace) : Except Interrupt Nat × Memory σ :=
    (ended.1, { memory with names := ended.2.names, state := ended.2.state })
  have simplified : (rewrite simplifyAll : Search σ Nat) other memory = (.ok 1, handed) :=
    congrArg place pass
  have lowered : lowerAll other handed = (.ok (), memory) := by
    rw [run_lowerAll_of_isStuck rests.pending, ← rests.simple]
  have refined : refineCandidates program other memory =
      (.ok (), { memory with solver := asked program memory.solver }) := by
    obtain ⟨first, rest, candidates⟩ := List.exists_cons_of_ne_nil some
    have answer : refinement other program memory =
        (.ok (first :: rest), asked program memory.solver) := by
      rw [refinement, clauses, ← candidates]
      exact reaffirmed program
    rw [run_refineCandidates, answer]
    dsimp only
    rw [← clauses, ← candidates]
  rw [solve, run_bind, simplified]
  change (lowerAll >>= fun _ => refineCandidates program) other handed = _
  rw [run_bind, lowered]
  exact refined

theorem settled_of_solve {program : Program} (reaffirms : setting.solver.Reaffirms asked)
    (simple : memory.state.simple = [])
    (ran : solve program setting memory = (.ok (), after)) :
    Settled setting asked after := by
  rcases exists_of_bind_ok ran with ⟨_, simplified, simplifies, ran⟩
  rcases exists_of_bind_ok ran with ⟨_, lowered, lowers, refines⟩
  rcases of_refineCandidates_ok refines with ⟨first, rest, answer, equal⟩
  have granted : setting.steps ≠ 0 := by
    intro none
    rw [rewrite, none] at simplifies
    cases simplifies
  rcases (yields_simplifyAll steady_silent).of_ok simplifies with ⟨_, passes, ends⟩
  have rests : lowered.state.AtRest :=
    (yields_lowerAll_atRest steady_silent ends simple fun _ _ =>
      .inr fun _ _ => trivial).of_ok lowers
  have settles : after.state.AtRest := by
    rw [equal]
    exact ⟨rests.simple, rests.pending⟩
  have clauses : after.state.clauses = [] := by rw [equal]
  have qualifiers : after.state.qualifiers = lowered.state.qualifiers := by rw [equal]
  have candidates : after.state.candidates = first :: rest := by rw [equal]
  have some : first :: rest ≠ [] := List.cons_ne_nil first rest
  apply settled_of_atRest granted settles clauses (candidates ▸ some)
  intro next
  rw [candidates, qualifiers]
  exact reaffirms _ _ _ _ _ _ _ answer some next after.solver

/-- Wherever a solve step succeeds that has been handed no atomic constraints, further ones
change nothing. -/
def SolvesOnce (setting : Setting σ) (asked : Program → σ → σ) : Prop :=
  ∀ program memory after, memory.state.simple = [] →
    solve program setting memory = (.ok (), after) → Settled setting asked after

/-- Solving is idempotent with a solver that weakens, and with one that accepts everything,
for any sources of qualifiers and whatever is pending and assigned. -/
theorem solving_is_idempotent (parameters : Parameters) (sources : QualifierSources)
    (steps : Nat) :
    (∀ bound, SolvesOnce ⟨parameters, .bounded bound, sources, steps⟩
      fun _ tally => { tally with calls := tally.calls + 1 }) ∧
    SolvesOnce ⟨parameters, .fixed true, sources, steps⟩
      fun program record => { record with
        batches := record.batches ++ [[]]
        programs := record.programs ++ [program.render] } :=
  ⟨fun bound _ _ _ => settled_of_solve (Solver.reaffirms_bounded bound),
    fun _ _ _ => settled_of_solve Solver.reaffirms_fixed⟩

def positiveSetting : Setting BoundedTally where
  parameters := {}
  solver := .bounded 2
  sources := ⟨fun _ => .empty, QualifierTemplates.fill
    { unary := [.lessThan (.int 0) (.var .int "?"), .lessThan (.int 1) (.var .int "?")] }⟩
  steps := 10

def positiveNumber : Memory BoundedTally :=
  let start := positiveSetting.start {}
  { start with state := start.state.addPending [
    .subtype ∅ (.atom (.typeVar "a") .top) (.atom (.typeVar "b") .top),
    .wellFormed ∅ (.atom .int (.unknown [] "p")),
    .subtype ∅ (.atom .int (.lessThan (.int 0) (.value .int)))
      (.atom .int (.unknown [] "p"))] }

theorem positiveNumber_solved_once :
    let ended := solve (.symbol "n" (.atom .int .top)) positiveSetting positiveNumber
    ended.1.isOk = true ∧
      ended.2.state.pending =
        [.subtype ∅ (.atom (.typeVar "a") .top) (.atom (.typeVar "b") .top)] ∧
      ended.2.state.candidates.map (·.solution) =
        [.ofList [("p", .ofList [.lessThan (.int 0) (.value .int)])]] ∧
      Settled positiveSetting (fun _ tally => { tally with calls := tally.calls + 1 })
        ended.2 := by
  intro ended
  have succeeds : ended.1.isOk = true := by decide +kernel
  have ran : ended = (.ok (), ended.2) := by
    cases outcome : ended.1 with
    | ok _ => exact Prod.ext outcome rfl
    | error _ =>
        rw [outcome] at succeeds
        cases succeeds
  exact ⟨succeeds, by decide +kernel, by decide +kernel,
    (solving_is_idempotent {} positiveSetting.sources 10).1 2 _ positiveNumber _ rfl ran⟩

end Search

end Inhabit
