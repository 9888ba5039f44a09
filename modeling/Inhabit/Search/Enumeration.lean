import Inhabit.Search.Basic

/-! Enumeration of what a search finds.

Whatever is to survive backtracking has to be outside the state of the branch. It
is kept beside the memory of the solver, which no choice puts back. -/

namespace Inhabit

def Solver.withNotes (ν : Type) (solver : Solver σ) : Solver (ν × σ) where
  initial := solver.initial
  refine clauses qualifiers program candidates :=
    beside (solver.refine clauses qualifiers program candidates)
  prune space := beside (solver.prune space)
where
  beside {α : Type} (ask : Solving σ α) : Solving (ν × σ) α := fun (notes, memory) =>
    let (result, memory) := ask.run memory
    (result, (notes, memory))

namespace Search

def getNotes : Search (ν × σ) ν := return (← get).solver.1

def modifyNotes (change : ν → ν) : Search (ν × σ) Unit :=
  modify fun memory =>
    { memory with solver := (change memory.solver.1, memory.solver.2) }

/-- Note what has been found, and reject it unless it is the last of `limit`
findings. -/
def collect (limit : Nat) (finding : α) (result : β) : Search (List α × σ) β := do
  modifyNotes (· ++ [finding])
  if limit ≤ (← getNotes).length then return result else fail .unsatisfiable

/-- The outcome of a computation, whose effects stay even if it fails. -/
def outcome (run : Search σ α) : Search σ (Except Failure α) :=
  fun setting memory =>
    match run setting memory with
    | (.ok result, after) => (.ok (.ok result), after)
    | (.error (.failed failure), after) => (.ok (.error failure), after)
    | (.error interrupt, after) => (.error interrupt, after)

end Search

end Inhabit
