import Inhabit.Program.Printer
import Inhabit.Solving.Solver

/-! Solvers with a fixed verdict, and solvers watched or restrained from outside.
They show what a search asks for and how it takes the answers. -/

namespace Inhabit

structure Record where
  batches : List (List HornClause) := []
  programs : List String := []
  pruned : List QualifierSpace := []
  deriving DecidableEq, Inhabited

def Solver.fixed (accept : Bool) : Solver Record where
  initial := { label := "init" }
  refine clauses _ program candidates := do
    modify fun record => { record with
      batches := record.batches ++ [clauses]
      programs := record.programs ++ [program.render] }
    return if accept then candidates.map (·.withValid clauses) else []
  prune space := do
    modify fun record => { record with pruned := record.pruned ++ [space] }
    return space

inductive SolverCall where
  | refine (program : Program) (clauses : List HornClause)
      (survivors : List Candidate)
  | prune (before after : QualifierSpace)

def SolverCall.isRefine : SolverCall → Bool
  | .refine _ _ _ => true
  | .prune _ _ => false

/-- A solver's memory and the calls that it has answered, the latest first. -/
structure Watched (σ : Type) where
  inner : σ
  calls : List SolverCall := []

namespace Watched

def refines (memory : Watched σ) : Nat := memory.calls.countP SolverCall.isRefine

def prunes (memory : Watched σ) : Nat :=
  memory.calls.countP fun call => !call.isRefine

def record (ask : Solving σ α) (call : α → SolverCall) : Solving (Watched σ) α :=
  fun memory =>
    match ask.run memory.inner with
    | (.ok result, inner) => (.ok result, ⟨inner, call result :: memory.calls⟩)
    | (.error interrupt, inner) => (.error interrupt, { memory with inner })

end Watched

namespace Solver

def watched (solver : Solver σ) : Solver (Watched σ) where
  initial := solver.initial
  refine clauses qualifiers program candidates :=
    Watched.record (solver.refine clauses qualifiers program candidates)
      (.refine program clauses)
  prune space := Watched.record (solver.prune space) (.prune space)

def giveUp (message : String) : Interrupt := .failed ⟨.solver message, none⟩

def limited (limit : Nat) (solver : Solver (Watched σ)) : Solver (Watched σ) :=
  { solver with
    refine := fun clauses qualifiers program candidates => do
      if limit ≤ (← get).refines then throw (giveUp "call limit")
      else solver.refine clauses qualifiers program candidates }

def refusingToPrune (solver : Solver σ) : Solver σ :=
  { solver with prune := fun _ => throw (giveUp "prune refused") }

end Solver

end Inhabit
