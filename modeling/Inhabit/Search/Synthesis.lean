import Inhabit.Search.RecursiveCalls

/-! Synthesis of a program for a goal. -/

namespace Inhabit

namespace SearchState

/-- The solution of the first candidate. Unknowns that it says nothing about are
unconstrained. -/
def solution (state : SearchState) : Solution :=
  state.qualifiers.keys.foldl (fun solution unknown => solution.insertIfNew unknown ∅)
    ((state.candidates.head?.map Candidate.solution).getD ∅)

def finalize (state : SearchState) (program : Program) : Program :=
  program.finalize state.solution state.assignment

end SearchState

def Goal.search (goal : Goal) : Search σ Program := do
  Search.searchGoal (← read).parameters.depth goal.environment goal.schema
    fun program => do
      Search.solve program
      return (← get).state.finalize program

/-- Search for a program for a goal. A search that fails without a fault has no
solution within its bounds. -/
def synthesize (setting : Setting σ) (goal : Goal) (solver : σ) :
    Except Interrupt Program × σ :=
  let (result, memory) := (goal.search.run setting).run.run (setting.start solver)
  match result with
  | .error (.failed failure) =>
      if failure.isFatal then (result, memory.solver)
      else (.error (.failed ⟨.noSolution goal.name, none⟩), memory.solver)
  | _ => (result, memory.solver)

end Inhabit
