import Inhabit.Proofs.Search.Paths
import Inhabit.Proofs.Solving.Survivors

/-! Where the clauses of a branch end up.

A clause that a branch has produced waits in the state until the candidates are refined,
and is with every candidate from then on. Choice points put both back, so that nothing
is kept of the clauses of an abandoned branch. -/

namespace Inhabit

/-- A candidate that survives is one of those that were asked about, checked against the
new clauses beside its own. -/
def Solver.ChecksAll (solver : Solver σ) : Prop :=
  ∀ clauses qualifiers program candidates memory survivors after,
    (solver.refine clauses qualifiers program candidates).run memory =
        (.ok survivors, after) →
      ∀ survivor ∈ survivors, ∃ candidate ∈ candidates,
        survivor.validClauses = candidate.validClauses.insertMany clauses

theorem Solver.checksAll_bounded (bound : Int64) : (Solver.bounded bound).ChecksAll := by
  intro clauses qualifiers program candidates memory survivors after ran survivor member
  rcases survives_of_bounded ran survivor member with ⟨candidate, inside, survives⟩
  exact ⟨candidate, inside, survives.checked⟩

/-- The clauses that were lowered in the course of these events are those that a candidate
has been checked against and those that wait. -/
def SearchState.Answers (state : SearchState) (branch : List Event) : Prop :=
  ∀ candidate ∈ state.candidates, ∀ clause,
    (clause ∈ candidate.validClauses ∨ clause ∈ state.clauses) ↔ .lowered clause ∈ branch

theorem SearchState.Answers.of_same {before after : SearchState} {branch later : List Event}
    (answers : before.Answers branch) (clauses : after.clauses = before.clauses)
    (candidates : after.candidates = before.candidates)
    (none : ∀ clause, .lowered clause ∉ later) : after.Answers (branch ++ later) := by
  intro candidate member clause
  rw [clauses, List.mem_append]
  rw [candidates] at member
  exact (answers candidate member clause).trans (or_iff_left (none clause)).symm

namespace Search

variable {σ : Type} {setting : Setting σ} (checks : setting.solver.ChecksAll)

include checks

theorem Step.answers {α : Type} {run : Search σ α} {events : Memory σ → List Event}
    (step : Step setting run events) {memory after : Memory σ} {value : α}
    (ran : run setting memory = (.ok value, after)) {branch : List Event}
    (answers : memory.state.Answers branch) :
    after.state.Answers (branch ++ events memory) := by
  cases step with
  | pure | get | read | naming =>
      cases ran
      exact answers.of_same rfl rfl fun _ => List.not_mem_nil
  | change clauses candidates =>
      cases ran
      exact answers.of_same (clauses _) (candidates _) fun _ => List.not_mem_nil
  | fail => cases ran
  | lower clause =>
      cases ran
      intro candidate member other
      have before := answers candidate member other
      simp only [SearchState.addClause, List.mem_append, List.mem_singleton, ← before,
        Event.lowered.injEq, or_assoc]
  | simplify =>
      have same := (run_rewrite_simplifyAll_advances setting memory).2
      dsimp only
      rw [ran] at same ⊢
      exact answers.of_same (congrArg (·.2.1) same) (congrArg (·.2.2) same)
        fun _ => List.not_mem_nil
  | prune space =>
      have same : after.state = memory.state := by
        have stored : (ask (·.prune space) setting memory).2.state = memory.state := rfl
        rwa [ran] at stored
      rw [← same] at answers
      exact answers.of_same rfl rfl (by simp)
  | refine program =>
      rcases of_refineCandidates_ok ran with ⟨first, rest, asked, equal⟩
      rw [equal]
      dsimp only
      rw [asked]
      intro survivor member clause
      rcases checks _ _ _ _ _ _ _ asked survivor member with ⟨candidate, inside, checked⟩
      have before := answers candidate inside clause
      simp [checked, before]

theorem Trace.answers {α : Type} {run : Search σ α} {memory : Memory σ}
    {branch events : List Event} {ended : Except Interrupt α × Memory σ}
    (trace : Trace setting run memory branch events ended) {earlier : List Event}
    (answers : memory.state.Answers earlier) :
    ∀ value after, ended = (.ok value, after) → after.state.Answers (earlier ++ branch) := by
  induction trace generalizing earlier with
  | step step memory => exact fun _ _ ran => step.answers checks ran answers
  | stop | exhausted => exact nofun
  | next _ _ first second =>
      intro value after found
      rw [← List.append_assoc]
      exact second (first answers _ _ rfl) value after found
  | @taken _ _ _ _ _ _ memory branch _ _ _ _ induction =>
      intro value after found
      have attempted : memory.state.Answers (earlier ++ [.attempted]) :=
        answers.of_same rfl rfl (by simp)
      have last := induction attempted value after found
      rwa [List.append_assoc] at last
  | passed _ _ _ _ induction => exact induction answers

end Search

theorem SearchState.answers_start {candidate : Candidate}
    (unchecked : candidate.validClauses = ∅) : (SearchState.start candidate).Answers [] := by
  intro other member clause
  rw [List.mem_singleton.mp member, unchecked]
  simp [SearchState.start]

open Search in
/-- A program that is found with a bounded solver has all its obligations met. The last
event of its branch is a refinement, and the first candidate that survives it has been
checked against the clauses of the branch and no others. All of them hold under the
solution that the program is instantiated by. -/
theorem obligations_reach_the_program {bound : Int64} {setting : Setting BoundedTally}
    {goal : Goal} {solver after : BoundedTally} {program : Program}
    (bounded : setting.solver = .bounded bound)
    (ran : synthesize setting goal solver = (.ok program, after)) :
    ∃ (memory : Memory BoundedTally) (first : Candidate) (rest : List Candidate),
      (∃ earlier events clauses found candidates,
        Trace setting goal.search (setting.start solver)
          (earlier ++ [.refined clauses memory.state.qualifiers found candidates
            (.ok (first :: rest))]) events (.ok program, memory) ∧
        memory.state.candidates = first :: rest ∧
        program = memory.state.finalize found) ∧
      (∀ branch events,
        Trace setting goal.search (setting.start solver) branch events (.ok program, memory) →
          ∀ clause, clause ∈ first.validClauses ↔ .lowered clause ∈ branch) ∧
      ∀ clause ∈ first.validClauses,
        clause.holds bound memory.state.solution = .ok true := by
  rcases synthesize_cases ran with ⟨memory, _, ⟨_, equal, found⟩ | ⟨_, equal, _⟩ | equal⟩
  case inr.inl | inr.inr => cases equal
  cases equal
  rcases goal.traced_search setting (setting.start solver) with
    ⟨branch, events, ended, trace, ends⟩
  have same := trace.run_eq.symm.trans found
  rcases ends program memory same with
    ⟨earlier, _, rfl, fragment, before, clauses, candidates, _, solved, finalized, rfl⟩
  cases same
  rcases exists_of_bind_ok solved with ⟨_, simplified, _, solved⟩
  rcases exists_of_bind_ok solved with ⟨_, lowered, _, refines⟩
  rcases of_refineCandidates_ok refines with ⟨first, rest, asked, state⟩
  have survivors : memory.state.candidates = first :: rest := by rw [state]
  -- Nothing waits after the last refinement, so that its survivor has all clauses.
  have waiting : memory.state.clauses = [] := by rw [state]
  have recorded : memory.state.qualifiers = lowered.state.qualifiers := by rw [state]
  unfold refinement at asked
  rw [bounded] at asked
  rcases Solver.survives_of_bounded asked first List.mem_cons_self with
    ⟨candidate, _, survives⟩
  have solution : memory.state.solution = first.solution := by
    apply SearchState.solution_eq survivors
    rw [recorded]
    exact fun unknown contained =>
      survives.weaker.contains unknown (Solution.contains_withStrongest contained _)
  rw [survivors] at trace
  refine ⟨memory, first, rest,
    ⟨earlier, events, clauses, fragment, candidates, trace, survivors, finalized⟩, ?_,
    solution ▸ survives.holds⟩
  intro branch events other clause
  have checks : setting.solver.ChecksAll := bounded ▸ Solver.checksAll_bounded bound
  have start : (setting.start solver).state.Answers [] := by
    apply SearchState.answers_start
    rw [bounded]
    rfl
  have answers := other.answers checks start program memory rfl first
    (survivors ▸ List.mem_cons_self) clause
  rwa [waiting, or_iff_left List.not_mem_nil] at answers

/-- A copy of `y` is wanted. The first symbol that is tried is not one. -/
def copyGoal : Goal where
  name := "copy"
  environment := ((∅ : Environment).addVariable "x" (.atom .int .top)).addVariable "y"
    (.atom .int .top)
  schema := .mono (.atom .int (.equals (.value .int) (.var .int "y")))

def copySetting : Setting BoundedTally where
  parameters :=
    { applicationDepth := 0, scrutineeDepth := 0, matchDepth := 0, conditionDepth := 0 }
  solver := .bounded 1
  sources := .none
  steps := 10

/-- The candidate that the copy is instantiated by has been checked against the clauses of
the second symbol. -/
theorem copyGoal_obligations_met : ∃ program after,
    synthesize copySetting copyGoal {} = (.ok program, after) ∧ program.render = "y" ∧
      after.rejections = 1 ∧ ∃ (memory : Memory BoundedTally) (first : Candidate),
        first ∈ memory.state.candidates ∧
        (∃ branch events,
          Search.Trace copySetting copyGoal.search (copySetting.start {}) branch events
            (.ok program, memory) ∧
          ∀ clause, clause ∈ first.validClauses ↔ .lowered clause ∈ branch) ∧
        ∀ clause ∈ first.validClauses,
          clause.holds 1 memory.state.solution = .ok true := by
  have rendered : (synthesize copySetting copyGoal {}).1.toOption.map Program.render =
      some "y" := by
    decide +kernel
  have rejected : (synthesize copySetting copyGoal {}).2.rejections = 1 := by
    decide +kernel
  rcases ran : synthesize copySetting copyGoal {} with ⟨result, after⟩
  rw [ran] at rendered rejected
  cases result with
  | error _ => cases rendered
  | ok program =>
      have spelled : program.render = "y" := Option.some_inj.mp rendered
      rcases obligations_reach_the_program rfl ran with
        ⟨memory, first, rest, ⟨earlier, events, _, _, _, trace, survivors, _⟩, exact, valid⟩
      exact ⟨program, after, rfl, spelled, rejected, memory, first,
        survivors ▸ List.mem_cons_self, ⟨_, events, trace, exact _ _ trace⟩, valid⟩

end Inhabit
