import Inhabit.Proofs.Faults.Outcomes
import Inhabit.Proofs.Simplification.Soundness

/-! What a solve step leaves pending.

Simplification comes to rest with a pass that binds no variable. All that this pass puts
aside compares two variables, and lowering passes it on to the next step; the rest of what
simplification hands over is atomic. -/

namespace Inhabit

namespace Constraint

/-- The constraint compares two variables that are free in its scope, and neither of them
is assigned. -/
inductive IsStuck (assignment : TypeAssignment) : Constraint → Prop where
  | variables {env : Environment} {first second : String}
      (firstRefinement secondRefinement : Formula) (different : first ≠ second)
      (firstFree : env.isBound first = false) (secondFree : env.isBound second = false)
      (firstOpen : assignment.find? first = none)
      (secondOpen : assignment.find? second = none) :
      IsStuck assignment (.subtype env (.atom (.typeVar first) firstRefinement)
        (.atom (.typeVar second) secondRefinement))

variable {assignment : TypeAssignment} {constraint : Constraint}

theorem rewriting_eq_defer_iff :
    constraint.rewriting assignment = .defer ↔ constraint.IsStuck assignment := by
  constructor
  · intro deferred
    have step := Constraint.step_of_rewriting deferred
    cases step with
    | @defer env left right first second isLeft isRight firstOpen secondOpen =>
        have different : first ≠ second := by
          rintro rfl
          simp [rewriting, isAssignedVar, SortedMap.contains, isLeft, isRight, firstOpen]
            at deferred
        rcases Environment.freeVar?_eq_some.mp isLeft with ⟨⟨left, rfl⟩, firstFree⟩
        rcases Environment.freeVar?_eq_some.mp isRight with ⟨⟨right, rfl⟩, secondFree⟩
        exact .variables left right different firstFree secondFree firstOpen secondOpen
  · rintro ⟨left, right, different, firstFree, secondFree, firstOpen, secondOpen⟩
    have isLeft := Environment.freeVar?_eq_some.mpr ⟨⟨left, rfl⟩, firstFree⟩
    have isRight := Environment.freeVar?_eq_some.mpr ⟨⟨right, rfl⟩, secondFree⟩
    simp [rewriting, isAssignedVar, SortedMap.contains, isLeft, isRight, firstOpen,
      secondOpen, different]

end Constraint

/-- Nothing more is to be done with the constraints of the state under its assignment. -/
structure SearchState.AtRest (state : SearchState) : Prop where
  simple : state.simple = []
  pending : ∀ constraint ∈ state.pending, constraint.IsStuck state.assignment

theorem Simplifies.atomic_or_stuck {before after : Workspace} {passes : Nat}
    {result : Except Failure Unit} (simplifies : Simplifies before passes result after)
    (ended : result = .ok ()) :
    after.state.pending = [] ∧ ∀ constraint ∈ after.state.simple,
      constraint ∈ before.state.simple ∨
        (∃ assignment, constraint.Step assignment .keep) ∨
          constraint.IsStuck after.state.assignment := by
  induction simplifies with
  | fail => cases ended
  | @last before after deferred rewrites same =>
      rcases rewrites.unchanged_of_size_eq same with ⟨unchanged, pending, again⟩
      rcases rewrites.exists_kept with ⟨kept, simple, atomic⟩
      refine ⟨pending, fun constraint member => ?_⟩
      change constraint ∈ after.state.simple ++ deferred at member
      change _ ∨ _ ∨ constraint.IsStuck after.state.assignment
      rw [simple, List.append_assoc, List.mem_append, List.mem_append] at member
      rcases member with old | isKept | isDeferred
      · exact .inl old
      · exact .inr (.inl (atomic constraint isKept))
      · rw [unchanged]
        exact .inr (.inr (Constraint.rewriting_eq_defer_iff.mp
          (again deferred rfl constraint isDeferred)))
  | @next before middle after deferred passes result rewrites _ _ induction =>
      rcases rewrites.exists_kept with ⟨kept, simple, atomic⟩
      rcases induction ended with ⟨pending, later⟩
      refine ⟨pending, fun constraint member => ?_⟩
      rcases later constraint member with early | new
      · change constraint ∈ middle.state.simple at early
        rw [simple, List.mem_append] at early
        exact early.imp_right fun isKept => .inl (atomic constraint isKept)
      · exact .inr new

theorem Lowered.atRest {before after : SearchState} {constraint : Constraint}
    (lowered : Lowered before constraint after) (rests : before.AtRest)
    (either : (∃ assignment, constraint.Step assignment .keep) ∨
      constraint.IsStuck before.assignment) : after.AtRest where
  simple := lowered.simple_eq.trans rests.simple
  pending := by
    rw [lowered.assignment_eq]
    cases lowered with
    | nothing | clause => exact rests.pending
    | refinement _ _ _ recorded | guard _ _ _ recorded =>
        rw [recorded.only]
        exact rests.pending
    | @again env left right isFree =>
        intro other member
        rcases List.mem_append.mp member with old | again
        · exact rests.pending other old
        · rw [List.mem_singleton.mp again]
          apply either.resolve_left
          rintro ⟨_, step⟩
          cases step with
          | keepAtoms leftRigid rightRigid =>
              rw [leftRigid, rightRigid] at isFree
              cases isFree

namespace Search

variable {σ : Type} {setting : Setting σ} {memory : Memory σ}

theorem yields_lowerAll_atRest {promise : Promise σ} {before : Workspace} {passes : Nat}
    (steady : promise.Steady setting)
    (simplifies : Simplifies before passes (.ok ()) ⟨memory.names, memory.state⟩)
    (simple : before.state.simple = [])
    (lowerable : ∀ constraint ∈ memory.state.simple, constraint.IsSimple ∨
      ∀ other : Memory σ, promise.calm other →
        promise.stopped (.failed (.nonSimpleConstraint constraint)) other) :
    Yields setting promise lowerAll memory fun _ after => after.state.AtRest := by
  rcases simplifies.atomic_or_stuck rfl with ⟨pending, handed⟩
  let invariant (left : List Constraint) (state : SearchState) : Prop :=
    state.AtRest ∧ ∀ constraint ∈ left, constraint ∈ memory.state.simple ∧
      ((∃ assignment, constraint.Step assignment .keep) ∨
        constraint.IsStuck state.assignment)
  have start : invariant memory.state.simple { memory.state with simple := [] } := by
    refine ⟨⟨rfl, ?_⟩, fun constraint member => ⟨member, ?_⟩⟩
    · change memory.state.pending = [] at pending
      dsimp only
      rw [pending]
      exact List.forall_mem_nil _
    · apply (handed constraint member).resolve_left
      rw [simple]
      exact List.not_mem_nil
  have lowered : Yields setting promise lowerAll memory fun _ after =>
      invariant [] after.state := by
    refine yields_lowerAll steady ?_ ?_ start
    · intro constraint rest before after holds lowered
      rcases List.forall_mem_cons.mp holds.2 with ⟨⟨_, either⟩, others⟩
      exact ⟨lowered.atRest holds.1 either, lowered.assignment_eq.symm ▸ others⟩
    · intro constraint rest other holds
      have member := (List.forall_mem_cons.mp holds.2).1.1
      exact (lowerable constraint member).imp_right fun stops => stops other
  exact lowered.mono fun _ _ => And.left

theorem yields_solve_atRest {incremental : Bool} {base : Environment}
    (answers : setting.solver.Answers) (program : Program)
    (simple : memory.state.simple = [])
    (lowerable : ∀ constraint ∈ memory.state.pending, constraint.IsLowerable) :
    Yields setting (stopping incremental base) (solve program) memory fun _ after =>
      after.state.AtRest ∧ after.state.clauses = [] := by
  have steady : (stopping incremental base).Steady setting := steady_stopping answers
  apply (yields_simplifyAll steady).bind
  rintro _ simplified ⟨_, passes, simplifies⟩
  have state : memory.state.IsLowerable := by
    refine ⟨lowerable, ?_⟩
    rw [simple]
    exact List.forall_mem_nil _
  have rewritten := simplifies.isLowerable rfl state
  have lowered : Yields setting (stopping incremental base) lowerAll simplified
      fun _ after => after.state.AtRest :=
    yields_lowerAll_atRest steady simplifies simple fun constraint member =>
      .inl (rewritten.simple constraint member)
  apply lowered.bind
  intro _ last rests
  apply (yields_refineCandidates_answered answers program).mono
  rintro _ after ⟨candidates, equal⟩
  rw [equal]
  exact ⟨⟨rests.simple, rests.pending⟩, rfl⟩

/-- Whatever is pending, a solve step is handed nothing that it cannot lower, and where it
succeeds, it has nothing left but comparisons of two unassigned variables. -/
theorem solve_leaves_only_stuck {outcome : Except Interrupt Unit} {after : Memory σ}
    {program : Program} (answers : setting.solver.Answers)
    (simple : memory.state.simple = [])
    (lowerable : ∀ constraint ∈ memory.state.pending, constraint.IsLowerable)
    (ran : solve program setting memory = (outcome, after)) :
    (∀ constraint context,
      outcome ≠ .error (.failed ⟨.nonSimpleConstraint constraint, context⟩)) ∧
    (outcome = .ok () → after.state.simple = [] ∧ after.state.clauses = [] ∧
      ∀ constraint ∈ after.state.pending, constraint.IsStuck after.state.assignment) := by
  have ended : Yields setting (stopping true ∅) (solve program) memory fun _ after =>
      after.state.AtRest ∧ after.state.clauses = [] :=
    yields_solve_atRest answers program simple lowerable
  have ended := ended trivial
  rw [ran] at ended
  constructor
  · rintro constraint context rfl
    rcases ended.1 rfl with unfinished | ⟨batch, _⟩
    · cases unfinished
    · cases batch
  · rintro rfl
    rcases ended with ⟨_, rests, clauses⟩
    exact ⟨rests.simple, clauses, rests.pending⟩

def comparedFunctions : Memory Record :=
  let var (name : String) : RefinedType := .atom (.typeVar name) .top
  let start := (boxSetting true).start {}
  { start with state := start.state.addPending [.subtype ∅
      (.function "x" (var "a") (var "b")) (.function "y" (.atom .int .top) (var "c"))] }

theorem comparedFunctions_stuck_at_results :
    let ended := solve (.symbol "p" (.atom .int .top)) (boxSetting true) comparedFunctions
    (∀ constraint ∈ comparedFunctions.state.pending, constraint.IsLowerable) ∧
      ended.1.isOk = true ∧ ended.2.state.pending.map Constraint.types =
        [[.atom (.typeVar "b") .top, .atom (.typeVar "c") .top]] ∧
      (∀ constraint context,
        ended.1 ≠ .error (.failed ⟨.nonSimpleConstraint constraint, context⟩)) ∧
      (ended.1 = .ok () → ended.2.state.simple = [] ∧ ended.2.state.clauses = [] ∧
        ∀ constraint ∈ ended.2.state.pending,
          constraint.IsStuck ended.2.state.assignment) := by
  have lowerable : ∀ constraint ∈ comparedFunctions.state.pending,
      constraint.IsLowerable := by
    intro constraint member
    rw [List.mem_singleton.mp member]
    rintro _ _ ⟨⟩
  exact ⟨lowerable, by decide +kernel, by decide +kernel,
    solve_leaves_only_stuck (Solver.answers_fixed true) rfl lowerable (Prod.eta _).symm⟩

end Search

end Inhabit
