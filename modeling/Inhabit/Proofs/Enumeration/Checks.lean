import Inhabit.Proofs.Enumeration.Patterns
import Inhabit.Proofs.Search.Solving
import Inhabit.Search.Enumeration

/-! Solve steps with a solver that accepts everything.

Rewriting alone decides whether the step goes on: lowering and refining never fail. -/

namespace Inhabit

/-! ## Rewriting what is pending -/

section Simplification

variable {env : Environment} {vars : List String} {cost room steps : Nat}
  {before middle : Workspace} {constraint : Constraint}

theorem run_mapM_wellFormed {copies : List (Environment × RefinedType)}
    (each : ∀ copy ∈ copies, copy.1.Rigid copy.2 ∧ copy.2.toTerm.size ≤ room)
    (enough : 2 * room ≤ steps) (before : Workspace) :
    ∃ lists atoms,
      ((copies.map fun copy => Constraint.wellFormed copy.1 copy.2).mapM
        (simplify steps)).run.run before = (.ok lists, before.addSimple atoms) ∧
      lists.flatten = [] ∧ ∀ atom ∈ atoms, atom.Closed := by
  induction copies generalizing before with
  | nil => exact ⟨[], [], by rw [Workspace.addSimple_nil]; rfl, rfl, List.forall_mem_nil _⟩
  | cons copy rest induction =>
      rcases List.forall_mem_cons.mp each with ⟨⟨rigid, small⟩, others⟩
      have decides := Constraint.decides_wellFormed copy.1 copy.2 rigid
      rcases decides.settles trivial before with ⟨atoms, closed, settles⟩
      rcases induction others (before.addSimple atoms) with
        ⟨lists, more, runRest, empty, closedMore⟩
      have runHead : (simplify steps (.wellFormed copy.1 copy.2)).run.run before =
          (.ok [], before.addSimple atoms) := settles.run_rewriteAll (by omega)
      refine ⟨[] :: lists, atoms ++ more, ?_, empty,
        List.forall_mem_append.mpr ⟨closed, closedMore⟩⟩
      rw [List.map_cons, List.mapM_cons, Rewrite.run_bind_of_ok runHead,
        Rewrite.run_bind_of_ok runRest, Workspace.addSimple_addSimple]
      rfl

section Passes

variable {lists : List (List Constraint)} {after : Workspace}
  (ran : (before.state.pending.mapM (simplify steps)).run.run before.clearPending =
    (.ok lists, after))
  (empty : lists.flatten = [])

include ran empty

theorem run_simplifyPasses_last
    (same : after.state.assignment.size = before.state.assignment.size) (passes : Nat) :
    (simplifyPasses steps (passes + 1)).run.run before = (.ok 1, after) := by
  rw [run_pass, Rewrite.run_bind_of_ok ran, Rewrite.run_get_bind, if_pos same, empty]
  exact congrArg (Prod.mk _) after.addSimple_nil

theorem run_simplifyPasses_next {last : Workspace} {count passes : Nat}
    (grown : after.state.assignment.size ≠ before.state.assignment.size)
    (continues : (simplifyPasses steps passes).run.run after = (.ok count, last)) :
    (simplifyPasses steps (passes + 1)).run.run before = (.ok (count + 1), last) := by
  have unchanged : after.addPending [] = after := by
    simp [Workspace.addPending, SearchState.addPending]
  rw [run_pass, Rewrite.run_bind_of_ok ran, Rewrite.run_get_bind, if_neg grown, empty,
    Rewrite.run_modifyState_bind]
  have continues : (simplifyPasses steps passes).run.run (after.addPending []) =
      (.ok count, last) := unchanged.symm ▸ continues
  exact Rewrite.run_bind_of_ok continues

end Passes

theorem run_simplifyAll_of_settles (pending : before.state.pending = [constraint])
    (settles : Settles cost before.clearPending [constraint] middle)
    (binds : Workspace.Binds env vars room before.clearPending middle)
    (enough : cost ≤ steps) (enoughRoom : 2 * room ≤ steps) (two : 2 ≤ steps) :
    ∃ passes after, (simplifyAll steps).run.run before = (.ok passes, after) ∧
      after.state.pending = [] ∧
      (∃ atoms : List Constraint, (∀ atom ∈ atoms, atom.Closed) ∧
        after.state.simple = before.state.simple ++ atoms) ∧
      after.state.assignment = middle.state.assignment := by
  rcases binds.pending with ⟨copies, count, each, middlePending⟩
  rcases binds.simple with ⟨atoms, closed, middleSimple⟩
  have first : (before.state.pending.mapM (simplify steps)).run.run before.clearPending =
      (.ok [[]], middle) := by
    have single : (simplify steps constraint).run.run before.clearPending = (.ok [], middle) :=
      settles.run_rewriteAll enough
    rw [pending, List.mapM_cons, Rewrite.run_bind_of_ok single]
    rfl
  obtain ⟨passes, isSteps⟩ := Nat.exists_eq_add_of_le' two
  have unfolded : simplifyAll steps = simplifyPasses steps (passes + 1 + 1) :=
    congrArg (simplifyPasses steps) isSteps
  rw [unfolded]
  cases copies with
  | nil =>
      have same : middle.state.assignment.size = before.state.assignment.size := by
        rw [binds.size, ← count]
        rfl
      exact ⟨1, middle, run_simplifyPasses_last first rfl same _, middlePending,
        ⟨atoms, closed, middleSimple⟩, rfl⟩
  | cons copy rest =>
      have grown : middle.state.assignment.size ≠ before.state.assignment.size := by
        rw [binds.size, ← count]
        exact Nat.ne_of_gt (Nat.lt_add_of_pos_right (Nat.succ_pos _))
      rcases run_mapM_wellFormed each enoughRoom middle.clearPending with
        ⟨lists, more, ran, empty, closedMore⟩
      have isPending : middle.state.pending =
          (copy :: rest).map fun copy => .wellFormed copy.1 copy.2 := middlePending
      rw [← isPending] at ran
      refine ⟨1 + 1, _, run_simplifyPasses_next first rfl grown
        (run_simplifyPasses_last ran empty rfl passes), rfl,
        ⟨atoms ++ more, List.forall_mem_append.mpr ⟨closed, closedMore⟩, ?_⟩, rfl⟩
      change middle.state.simple ++ more = _
      rw [middleSimple]
      exact List.append_assoc _ _ _

theorem run_simplifyAll_of_refuses (pending : before.state.pending = [constraint])
    (refuses : Refuses cost before.clearPending [constraint]) (enough : cost ≤ steps)
    (one : 1 ≤ steps) :
    ∃ failure after, (simplifyAll steps).run.run before = (.error (.failed failure), after) := by
  rcases refuses with ⟨count, least, runs⟩
  obtain ⟨fewer, isSteps⟩ := Nat.exists_eq_add_of_le' (least.trans enough)
  obtain ⟨passes, isPasses⟩ := Nat.exists_eq_add_of_le' one
  rcases runs fewer [] with ⟨failure, after, run⟩
  rw [← isSteps] at run
  have unfolded : simplifyAll steps = simplifyPasses steps (passes + 1) :=
    congrArg (simplifyPasses steps) isPasses
  have single : (simplify steps constraint).run.run before.clearPending =
      (.error (.failed failure), after) := run
  have first : (before.state.pending.mapM (simplify steps)).run.run before.clearPending =
      (.error (.failed failure), after) := by
    rw [pending, List.mapM_cons]
    exact Rewrite.run_bind_of_error single
  rw [unfolded, run_pass]
  exact ⟨failure, after, Rewrite.run_bind_of_error first⟩

end Simplification

/-! ## Lowering and refining -/

/-- The same constraints are open and the same variables assigned, and there are candidates
if there have been any. -/
structure Memory.SameBranch {ν τ : Type} (before after : Memory (ν × τ)) : Prop where
  names : after.names = before.names
  notes : after.solver.1 = before.solver.1
  pending : after.state.pending = before.state.pending
  simple : after.state.simple = before.state.simple
  assignment : after.state.assignment = before.state.assignment
  candidates : before.state.candidates ≠ [] → after.state.candidates ≠ []

theorem Memory.SameBranch.trans {ν τ : Type} {before middle after : Memory (ν × τ)}
    (early : before.SameBranch middle) (late : middle.SameBranch after) :
    before.SameBranch after where
  names := late.names.trans early.names
  notes := late.notes.trans early.notes
  pending := late.pending.trans early.pending
  simple := late.simple.trans early.simple
  assignment := late.assignment.trans early.assignment
  candidates := late.candidates ∘ early.candidates

namespace Search

variable {α β ν τ : Type}

def Stays (setting : Setting (ν × τ)) (run : Search (ν × τ) α) (result : α) : Prop :=
  ∀ memory, ∃ after, run setting memory = (.ok result, after) ∧ memory.SameBranch after

namespace Stays

variable {setting : Setting (ν × τ)} {result : α}

theorem pure (result : α) : Stays setting (Pure.pure result) result :=
  fun memory => ⟨memory, rfl, rfl, rfl, rfl, rfl, rfl, id⟩

theorem bind {run : Search (ν × τ) β} {value : β} {rest : β → Search (ν × τ) α}
    (first : Stays setting run value) (second : Stays setting (rest value) result) :
    Stays setting (run >>= rest) result := by
  intro memory
  rcases first memory with ⟨middle, ran, early⟩
  rcases second middle with ⟨after, ranRest, late⟩
  refine ⟨after, ?_, early.trans late⟩
  rw [run_bind, ran]
  exact ranRest

theorem get_bind {rest : Memory (ν × τ) → Search (ν × τ) α}
    (second : ∀ memory, Stays setting (rest memory) result) :
    Stays setting (get >>= rest) result :=
  fun memory => second memory memory

theorem read_bind {rest : Setting (ν × τ) → Search (ν × τ) α}
    (second : Stays setting (rest setting) result) :
    Stays setting (read >>= rest) result :=
  second

theorem modifyState {change : SearchState → SearchState}
    (kept : ∀ state, (change state).pending = state.pending ∧
      (change state).simple = state.simple ∧ (change state).assignment = state.assignment ∧
      (change state).candidates = state.candidates) :
    Stays setting (Search.modifyState change) () := by
  intro memory
  rcases kept memory.state with ⟨pending, simple, assignment, candidates⟩
  exact ⟨_, rfl, rfl, rfl, pending, simple, assignment, candidates.trans_ne⟩

theorem forIn {elements : List β} {body : β → PUnit → Search (ν × τ) (ForInStep PUnit)}
    (each : ∀ element, Stays setting (body element ⟨⟩) (.yield ⟨⟩)) :
    Stays setting (forIn elements ⟨⟩ body) ⟨⟩ := by
  induction elements with
  | nil => exact pure _
  | cons element rest induction =>
      rw [List.forIn_cons]
      exact (each element).bind induction

theorem forM {elements : List β} {body : β → Search (ν × τ) Unit}
    (each : ∀ element ∈ elements, Stays setting (body element) ()) :
    Stays setting (elements.forM body) () := by
  induction elements with
  | nil => exact pure _
  | cons element rest induction =>
      rw [List.forall_mem_cons] at each
      exact each.1.bind (induction each.2)

end Stays

section Accepting

variable {setting : Setting (ν × Record)}
  (accepting : setting.solver = (Solver.fixed true).withNotes ν)

include accepting

theorem stays_addQualifiers (unknown : String) (space : QualifierSpace) :
    Stays setting (addQualifiers unknown space) () := by
  have answered : Stays setting (ask (·.prune space)) space := by
    intro memory
    unfold ask
    rw [accepting]
    exact ⟨_, rfl, rfl, rfl, rfl, rfl, rfl, id⟩
  exact answered.bind (.modifyState fun _ => ⟨rfl, rfl, rfl, rfl⟩)

theorem stays_lower {constraint : Constraint} (closed : constraint.Closed) :
    Stays setting (lower constraint) () := by
  apply Stays.get_bind
  intro memory
  cases closed with
  | @subtype env base left right rigid =>
      simp only [rigid, Option.isSome_none, Bool.or_self, Bool.false_eq_true, if_false, if_true]
      split
      · exact .pure _
      · exact .modifyState fun _ => ⟨rfl, rfl, rfl, rfl⟩
  | wellFormed env base refinement =>
      apply Stays.bind (Stays.forIn _) (.pure _)
      intro unknown
      exact .read_bind ((stays_addQualifiers accepting _ _).bind (.pure _))

theorem run_lowerAll_of_closed {memory : Memory (ν × Record)}
    (closed : ∀ constraint ∈ memory.state.simple, constraint.Closed) :
    ∃ after, lowerAll setting memory = (.ok (), after) ∧
      ({ memory with state := { memory.state with simple := [] } } :
        Memory (ν × Record)).SameBranch after := by
  have lowered : Stays setting (memory.state.simple.forM lower) () :=
    .forM fun constraint member => stays_lower accepting (closed constraint member)
  exact lowered _

theorem run_refineCandidates_of_accepting {memory : Memory (ν × Record)}
    (some : memory.state.candidates ≠ []) (program : Program) :
    ∃ after, refineCandidates program setting memory = (.ok (), after) ∧
      memory.SameBranch after := by
  let survivors := memory.state.candidates.map (·.withValid memory.state.clauses)
  have nonempty : survivors ≠ [] := by simpa [survivors] using some
  let record := memory.solver.2
  have ran : refineCandidates program setting memory = (.ok (), {
      state := { memory.state with clauses := [], candidates := survivors }
      names := memory.names
      solver := (memory.solver.1, { record with
        batches := record.batches ++ [memory.state.clauses]
        programs := record.programs ++ [program.render] }) }) := by
    have answered : (ask (·.refine memory.state.clauses memory.state.qualifiers program
        memory.state.candidates) : Search (ν × Record) (List Candidate)) setting
        { memory with state := { memory.state with clauses := [], candidates := [] } } =
          (.ok survivors, {
            state := { memory.state with clauses := [], candidates := [] }
            names := memory.names
            solver := (memory.solver.1, { record with
              batches := record.batches ++ [memory.state.clauses]
              programs := record.programs ++ [program.render] }) }) := by
      unfold ask
      rw [accepting]
      rfl
    unfold refineCandidates
    rw [run_bind]
    change ((modifyState _ >>= _) : Search (ν × Record) Unit) setting memory = _
    rw [run_bind]
    change ((ask _ >>= _) : Search (ν × Record) Unit) setting _ = _
    rw [run_bind, answered]
    dsimp only
    rw [if_neg (by simpa using nonempty)]
    rfl
  exact ⟨_, ran, rfl, rfl, rfl, rfl, rfl, fun _ => nonempty⟩

end Accepting

end Search

/-! ## Solve steps -/

/-- The branch has candidates and no open constraints, and its variables are drawn ones that
stand for types without free variables. -/
structure Memory.Idle (memory : Memory σ) (env : Environment) : Prop where
  pending : memory.state.pending = []
  simple : memory.state.simple = []
  candidates : memory.state.candidates ≠ []
  grounded : memory.state.assignment.Grounded env
  drawn : ∀ name t, memory.state.assignment.find? name = some t → memory.names.Avoids name

def Memory.posing (memory : Memory σ) (constraint : Constraint) : Memory σ :=
  { memory with state := memory.state.addPending [constraint] }

theorem Memory.Idle.pending_posing {memory : Memory σ} {env : Environment}
    (idle : memory.Idle env) (constraint : Constraint) :
    (memory.posing constraint).state.pending = [constraint] :=
  congrArg (· ++ [constraint]) idle.pending

/-- The search has noted nothing since, and taken back no name. -/
structure Memory.Quiet {ν τ : Type} (before after : Memory (ν × τ)) : Prop where
  advances : before.names.issued ≤ after.names.issued
  notes : after.solver.1 = before.solver.1

namespace Search

variable {ν τ : Type}

theorem run_check {setting : Setting σ} (incremental : setting.parameters.incremental = true)
    (memory : Memory σ) (constraint : Constraint) (program : Program) :
    (constrain constraint >>= fun _ => solveIncrementally program) setting memory =
      solve program setting (memory.posing constraint) := by
  rw [run_bind]
  change (if setting.parameters.incremental then solve program else Pure.pure ()) setting _ = _
  rw [if_pos incremental]
  rfl

theorem run_rewrite_eq {α : Type} {run : Nat → Rewrite α} {setting : Setting σ}
    {memory : Memory σ} {outcome : Except Interrupt α} {workspace : Workspace}
    (ran : (run setting.steps).run.run ⟨memory.names, memory.state⟩ =
      (outcome, workspace)) :
    (rewrite run : Search σ α) setting memory =
      (outcome, { memory with names := workspace.names, state := workspace.state }) := by
  unfold rewrite
  change (run setting.steps).run ⟨memory.names, memory.state⟩ = _ at ran
  rw [ran]

theorem run_solve_of_error {setting : Setting (ν × τ)} {memory : Memory (ν × τ)}
    {failure : Failure} {workspace : Workspace}
    (ran : (simplifyAll setting.steps).run.run ⟨memory.names, memory.state⟩ =
      (.error (.failed failure), workspace)) (program : Program) :
    ∃ after, solve program setting memory = (.error (.failed failure), after) ∧
      failure.isFatal = false ∧ memory.Quiet after := by
  have rewritten := run_rewrite_eq ran
  have advances := (run_rewrite_simplifyAll_advances setting memory).1
  rw [rewritten] at advances
  rcases run_rewrite_simplifyAll rewritten nofun with ⟨passes, outcome, simplifies, equal⟩
  refine ⟨_, ?_, ?_, advances, rfl⟩
  · unfold solve
    rw [run_bind, rewritten]
  · cases outcome with
    | ok _ => cases equal
    | error other =>
        cases equal
        exact simplifies.recoverable rfl

theorem run_solve_of_ok {setting : Setting (ν × Record)}
    (accepting : setting.solver = (Solver.fixed true).withNotes ν)
    {memory : Memory (ν × Record)} {workspace : Workspace} {passes : Nat}
    (ran : (simplifyAll setting.steps).run.run ⟨memory.names, memory.state⟩ =
      (.ok passes, workspace))
    (closed : ∀ constraint ∈ workspace.state.simple, constraint.Closed)
    (some : memory.state.candidates ≠ []) (program : Program) :
    ∃ after, solve program setting memory = (.ok (), after) ∧ memory.Quiet after ∧
      after.names = workspace.names ∧ after.state.pending = workspace.state.pending ∧
      after.state.simple = [] ∧ after.state.assignment = workspace.state.assignment ∧
      after.state.candidates ≠ [] := by
  have rewritten := run_rewrite_eq ran
  have moved := run_rewrite_simplifyAll_advances setting memory
  rw [rewritten] at moved
  have candidates : workspace.state.candidates ≠ [] := by
    have same : workspace.state.candidates = memory.state.candidates :=
      congrArg (fun solved => solved.2.2) moved.2
    rwa [same]
  let middle : Memory (ν × Record) :=
    { memory with names := workspace.names, state := workspace.state }
  have isClosed : ∀ constraint ∈ middle.state.simple, constraint.Closed := closed
  rcases run_lowerAll_of_closed accepting isClosed with ⟨lowered, ranLower, early⟩
  rcases run_refineCandidates_of_accepting accepting (early.candidates candidates) program with
    ⟨after, ranRefine, late⟩
  refine ⟨after, ?_, ⟨?_, late.notes.trans early.notes⟩, late.names.trans early.names,
    late.pending.trans early.pending, late.simple.trans early.simple,
    late.assignment.trans early.assignment, late.candidates (early.candidates candidates)⟩
  · unfold solve
    rw [run_bind, rewritten]
    dsimp only
    rw [run_bind, ranLower]
    exact ranRefine
  · rw [late.names.trans early.names]
    exact moved.1

section Checks

variable {setting : Setting (ν × Record)} {env scope : Environment}
  {vars : List String} {left right : RefinedType} {result : TypeTerm}
  {memory : Memory (ν × Record)}
  (incremental : setting.parameters.incremental = true)
  (idle : memory.Idle env) (awaits : Awaits env vars right result)
  (same : scope.boundTypeVars = env.boundTypeVars) (rigid : env.Rigid left)
  (distinct : vars.Nodup)
  (isOpen : ∀ var ∈ vars, memory.state.assignment.find? var = none)
  (enough : 3 * left.toTerm.size + result.size ≤ setting.steps)

include incremental idle awaits same rigid distinct isOpen enough

theorem run_check_of_eq (accepting : setting.solver = (Solver.fixed true).withNotes ν)
    (drawn : ∀ var ∈ vars, memory.names.Avoids var)
    {arguments : List TypeTerm} (length : arguments.length = vars.length)
    (equal : left.toTerm = .arrows arguments result) (program : Program) :
    ∃ after, (constrain (.subtype scope left right) >>= fun _ =>
        solveIncrementally program) setting memory = (.ok (), after) ∧
      memory.Quiet after ∧ after.Idle env := by
  let posed := memory.posing (.subtype scope left right)
  let before : Workspace := ⟨posed.names, posed.state⟩
  have pending : before.state.pending = [.subtype scope left right] := idle.pending_posing _
  have isOpenHere : ∀ var ∈ vars, before.clearPending.state.assignment.find? var = none := isOpen
  have leftPositive := left.toTerm.size_pos
  have resultPositive := result.size_pos
  have steps : 3 * left.toTerm.size + result.size - 1 ≤ setting.steps ∧
      2 * left.toTerm.size ≤ setting.steps ∧ 2 ≤ setting.steps := by omega
  have decides := awaits.decides same rigid distinct isOpenHere idle.grounded
  rcases decides.settles arguments length equal with ⟨middle, settles, binds⟩
  rcases run_simplifyAll_of_settles pending settles binds steps.1 steps.2.1 steps.2.2 with
    ⟨passes, workspace, ran, empty, ⟨atoms, closed, simple⟩, assignment⟩
  have isSimple : workspace.state.simple = atoms :=
    simple.trans (congrArg (· ++ atoms) idle.simple)
  rcases run_solve_of_ok accepting ran (isSimple ▸ closed) idle.candidates program with
    ⟨after, solved, quiet, names, afterPending, afterSimple, afterAssignment, candidates⟩
  refine ⟨after, (run_check incremental _ _ _).trans solved,
    ⟨quiet.advances, quiet.notes⟩,
    afterPending.trans empty, afterSimple, candidates, ?_, ?_⟩
  · rw [afterAssignment, assignment]
    exact binds.grounded idle.grounded awaits.free
  · intro name t found
    rw [afterAssignment, assignment] at found
    rcases binds.assigned name t found with old | ⟨member, _⟩
    · exact (idle.drawn name t old).later quiet.advances
    · exact (drawn name member).later quiet.advances

theorem run_check_of_ne
    (different : ∀ arguments, arguments.length = vars.length →
      left.toTerm ≠ .arrows arguments result) (program : Program) :
    ∃ failure after, (constrain (.subtype scope left right) >>= fun _ =>
        solveIncrementally program) setting memory = (.error (.failed failure), after) ∧
      failure.isFatal = false ∧ memory.Quiet after := by
  let posed := memory.posing (.subtype scope left right)
  let before : Workspace := ⟨posed.names, posed.state⟩
  have pending : before.state.pending = [.subtype scope left right] := idle.pending_posing _
  have isOpenHere : ∀ var ∈ vars, before.clearPending.state.assignment.find? var = none := isOpen
  have leftPositive := left.toTerm.size_pos
  have steps : 3 * left.toTerm.size + result.size - 1 ≤ setting.steps ∧ 1 ≤ setting.steps := by
    omega
  have refuses := (awaits.decides same rigid distinct isOpenHere idle.grounded).refuses different
  rcases run_simplifyAll_of_refuses pending refuses steps.1 steps.2 with
    ⟨failure, workspace, ran⟩
  rcases run_solve_of_error ran program with ⟨after, failed, recoverable, quiet⟩
  exact ⟨failure, after, (run_check incremental _ _ _).trans failed, recoverable,
    ⟨quiet.advances, quiet.notes⟩⟩

end Checks

end Search

end Inhabit
