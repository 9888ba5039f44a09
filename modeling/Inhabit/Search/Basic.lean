import Inhabit.Parameters
import Inhabit.Solving.Simplification
import Inhabit.Solving.Solver

/-! Searching with choice points.

A search that fails leaves the state of its branch as it was at the failure, and a
choice point puts it back before it tries the next option. Names that have been
drawn, and what the solver remembers, are never put back. -/

namespace Inhabit

structure Setting (σ : Type) where
  parameters : Parameters
  solver : Solver σ
  sources : QualifierSources
  /-- How many steps a single rewriting is granted. -/
  steps : Nat

structure Memory (σ : Type) where
  state : SearchState
  names : NameSupply := {}
  solver : σ

abbrev Search (σ : Type) :=
  ReaderT (Setting σ) (ExceptT Interrupt (StateM (Memory σ)))

namespace Search

def fail (failure : Failure) : Search σ α := throw (.failed failure)

def modifyState (change : SearchState → SearchState) : Search σ Unit :=
  modify fun memory => { memory with state := change memory.state }

def naming (draw : Naming α) : Search σ α := do
  let memory ← get
  let (result, names) := draw.run memory.names
  set { memory with names }
  return result

def fresh (stem : String) : Search σ String := naming (freshName stem)

def rewrite (run : Nat → Rewrite α) : Search σ α := fun setting memory =>
  let (result, workspace) := (run setting.steps).run ⟨memory.names, memory.state⟩
  (result, { memory with names := workspace.names, state := workspace.state })

def ask (question : Solver σ → Solving σ α) : Search σ α := fun setting memory =>
  let (result, solver) := (question setting.solver).run memory.solver
  (result, { memory with solver })

def constrain (constraint : Constraint) : Search σ Unit :=
  modifyState (·.addPending [constraint])

def applyAssignment (t : RefinedType) : Search σ RefinedType :=
  return (← get).state.assignment.apply t

/-- The result of the first option whose attempt succeeds. A failure that is not
fatal puts the state of the branch back and passes on to the next option; anything
else that goes wrong ends the choice. With no option left the last failure is the
result, and `none` if there was no option. -/
def choose (options : List α) (none : Failure) (attempt : α → Search σ β) :
    Search σ β :=
  match options with
  | [] => fail none
  | option :: rest => fun setting memory =>
      match attempt option setting memory with
      | (.ok result, after) => (.ok result, after)
      | (.error (.failed failure), after) =>
          if failure.isFatal then (.error (.failed failure), after)
          else choose rest failure attempt setting
            { after with state := memory.state }
      | (.error interrupt, after) => (.error interrupt, after)

end Search

def Setting.start (setting : Setting σ) (solver : σ) : Memory σ :=
  { state := .start setting.solver.initial, solver }

end Inhabit
