import Inhabit.Proofs.Search.Replays
import Inhabit.Proofs.Unknowns.Recording

/-! What the solver is asked to refine, and what becomes of recorded spaces.

A solver can note its requests without the search being any different. A request does
not tell how type variables are assigned at the time, though. A solver that gives up
instead of answering leaves the memory of the search as it was when it was asked, since
no choice point passes over a fault. -/

namespace Inhabit

/-! ## Solvers that note their requests -/

abbrev Request := List HornClause × QualifierMap

structure Noting (σ : Type) where
  inner : σ
  requests : List Request := []

/-- The same solver with its requests noted, whether it answers them or not. -/
def Solver.noting (solver : Solver σ) : Solver (Noting σ) where
  initial := solver.initial
  refine clauses qualifiers program candidates := fun memory =>
    let (result, inner) :=
      (solver.refine clauses qualifiers program candidates).run memory.inner
    (result, ⟨inner, memory.requests ++ [(clauses, qualifiers)]⟩)
  prune space := fun memory =>
    let (result, inner) := (solver.prune space).run memory.inner
    (result, { memory with inner })

def Setting.noting (setting : Setting σ) : Setting (Noting σ) :=
  setting.withSolver setting.solver.noting

namespace Search

def observed : Pairing σ (Noting σ) where
  alike memory noting := noting.inner = memory
  behind _ _ := False

theorem accords_observed (solver : Solver σ) : observed.Accords solver solver.noting where
  refine _ _ _ _ := ⟨by rintro _ noting rfl; exact .inl ⟨rfl, rfl⟩, fun _ _ => id⟩
  prune _ := ⟨by rintro _ noting rfl; exact .inl ⟨rfl, rfl⟩, fun _ _ => id⟩

end Search

theorem Goal.search_noting (goal : Goal) (setting : Setting σ) (solver : σ) :
    ∃ requests, goal.search setting.noting (setting.noting.start ⟨solver, []⟩) =
      ((goal.search setting (setting.start solver)).1,
        (goal.search setting (setting.start solver)).2.withSolver
          ⟨(goal.search setting (setting.start solver)).2.solver, requests⟩) := by
  have replays := goal.replays_search (Search.accords_observed setting.solver)
  rcases replays.together (setting.start solver) ⟨solver, []⟩ rfl with
    ⟨⟨inner, requests⟩, rfl, same, memory⟩ | ⟨_, _, _, behind⟩
  · exact ⟨requests, Prod.ext same memory⟩
  · cases behind

/-! ## Solvers that halt -/

/-- A solver's memory, the number of requests to refine that it is yet to answer,
and the one that it did not answer. -/
structure Halting (σ : Type) where
  inner : σ
  left : Nat
  request : Option Request := none

namespace Solver

def halted : Interrupt := giveUp "halted"

/-- The same solver until it has answered so many requests to refine. It notes the
next one and gives up. -/
def halting (solver : Solver σ) : Solver (Halting σ) where
  initial := solver.initial
  refine clauses qualifiers program candidates := fun memory =>
    match memory.left with
    | 0 => (.error halted, { memory with request := some (clauses, qualifiers) })
    | left + 1 =>
        let (result, inner) :=
          (solver.refine clauses qualifiers program candidates).run memory.inner
        (result, { memory with inner, left })
  prune space := fun memory =>
    let (result, inner) := (solver.prune space).run memory.inner
    (result, { memory with inner })

theorem run_refine_halting (solver : Solver σ) (clauses : List HornClause)
    (qualifiers : QualifierMap) (program : Program) (candidates : List Candidate)
    (memory : Halting σ) :
    ((solver.halting.refine clauses qualifiers program candidates).run memory).2.request =
        memory.request ∨
      (solver.halting.refine clauses qualifiers program candidates).run memory =
        (.error halted, { memory with request := some (clauses, qualifiers) }) := by
  rcases memory with ⟨inner, left, request⟩
  cases left with
  | zero => exact .inr rfl
  | succ left => exact .inl rfl

end Solver

def Setting.halting (setting : Setting σ) : Setting (Halting σ) :=
  setting.withSolver setting.solver.halting

namespace Search

/-- A solver that halts and the same solver as it notes its requests. The one that
was not answered is the one that is noted next. -/
def interrupted (answered : Nat) : Pairing (Halting σ) (Noting σ) where
  alike halting noting := halting.request = none ∧ halting.inner = noting.inner ∧
    noting.requests.length + halting.left = answered
  behind halting noting := ∃ request, halting.request = some request ∧
    noting.requests[answered]? = some request

theorem accords_interrupted (solver : Solver σ) (answered : Nat) :
    (interrupted answered).Accords solver.halting solver.noting where
  refine clauses qualifiers program candidates := by
    constructor
    · rintro ⟨inner, left, request⟩ ⟨_, requests⟩ ⟨rfl, rfl, rfl⟩
      cases left with
      | zero =>
          exact .inr ⟨Solver.halted, rfl, rfl, _, rfl, List.getElem?_concat_length⟩
      | succ left =>
          refine .inl ⟨⟨rfl, rfl, ?_⟩, rfl⟩
          change (requests ++ [(clauses, qualifiers)]).length + left =
            requests.length + (left + 1)
          rw [List.length_append, List.length_singleton, Nat.add_right_comm, Nat.add_assoc]
    · rintro halting ⟨inner, requests⟩ ⟨request, sent, noted⟩
      refine ⟨request, sent, ?_⟩
      exact (List.getElem?_append_left (List.getElem?_eq_some_iff.mp noted).1).trans noted
  prune space := by
    constructor
    · rintro ⟨inner, left, request⟩ ⟨_, requests⟩ ⟨rfl, rfl, rfl⟩
      exact .inl ⟨⟨rfl, rfl, rfl⟩, rfl⟩
    · exact fun _ _ => id

end Search

theorem Goal.search_halting {goal : Goal} {setting : Setting σ} {solver : σ}
    {result : Except Interrupt Program} {after : Memory (Noting σ)}
    (ran : goal.search setting.noting (setting.noting.start ⟨solver, []⟩) = (result, after))
    {answered : Nat} {request : Request}
    (sent : after.solver.requests[answered]? = some request) :
    ∃ interrupt stopped, goal.search setting.halting
        (setting.halting.start ⟨solver, answered, none⟩) = (.error interrupt, stopped) ∧
      interrupt.stops = true ∧ stopped.solver.request = some request := by
  have accords : (Search.interrupted answered).Accords setting.halting.solver
      setting.solver.noting := Search.accords_interrupted setting.solver answered
  have replays := goal.replays_search accords
  have met := replays.together (setting.halting.start ⟨solver, answered, none⟩)
    ⟨solver, []⟩ ⟨rfl, rfl, Nat.zero_add answered⟩
  change (Search.interrupted answered).Meets _
    (goal.search setting.noting (setting.noting.start ⟨solver, []⟩)) at met
  rw [ran] at met
  rcases met with ⟨noting, ⟨_, _, few⟩, _, rfl⟩ |
    ⟨interrupt, stops, ended, request, asked, noted⟩
  · have noted : answered < noting.requests.length := (List.getElem?_eq_some_iff.mp sent).1
    exact absurd (Nat.le.intro few) (Nat.not_le.mpr noted)
  · cases sent.symm.trans noted
    exact ⟨interrupt, _, Prod.ext ended rfl, stops, asked⟩

namespace Search

/-- The request that was not answered comes with a space for every unknown in its
clauses and in the assigned types. -/
structure Served (clauses : List HornClause) (qualifiers : QualifierMap)
    (state : SearchState) : Prop where
  sent : state.qualifiers = qualifiers
  clauses : ∀ clause ∈ clauses, ∀ unknown ∈ clause.unknowns,
    qualifiers.contains unknown = true
  assignment : ∀ name t, state.assignment.find? name = some t →
    ∀ unknown ∈ t.unknowns, qualifiers.contains unknown = true

def serving : Promise (Halting σ) where
  calm memory := memory.solver.request = none
  stopped interrupt memory := ∀ clauses qualifiers,
    memory.solver.request = some (clauses, qualifiers) →
      interrupt = Solver.halted ∧ Served clauses qualifiers memory.state
  renamed _ _ := id
  resumed _ _ _ := id

theorem served_of_ready {state : SearchState} (ready : state.Ready) :
    Served state.clauses state.qualifiers
      { state with clauses := [], candidates := [] } where
  sent := rfl
  clauses clause member unknown occurs := by
    have covered := ready.accounted.clauses clause member
    rcases SortedSet.mem_union.mp occurs with inFirst | inSecond
    · exact ready.recorded unknown
        (covered.1.of_mem unknown (SortedSet.mem_ofList.mp inFirst))
    · exact ready.recorded unknown
        (covered.2.of_mem unknown (SortedSet.mem_ofList.mp inSecond))
  assignment name t found unknown occurs :=
    ready.recorded unknown ((ready.accounted.assignment name t found).of_mem unknown
      (SortedSet.mem_ofList.mp occurs))

variable {σ : Type} {setting : Setting σ}

theorem serving_of_calm {interrupt : Interrupt} (memory : Memory (Halting σ))
    (calm : serving.calm memory) : serving.stopped interrupt memory := by
  intro clauses qualifiers asked
  rw [show memory.solver.request = none from calm] at asked
  cases asked

theorem tracks_serving : serving.Tracks setting.halting where
  moved _ _ _ _ := id
  unfinished := serving_of_calm
  missing _ _ _ := serving_of_calm _
  nonSimple memory _ := serving_of_calm memory
  recorded memory unknown space proposed new := by
    apply yields_addQualifiers
    apply Yields.ask
    · intro answer solver asked calm
      have kept : solver.request = none := calm ▸ congrArg (·.2.request) asked.symm
      exact ⟨kept, rfl, kept⟩
    · intro interrupt solver asked calm
      have kept : solver.request = none := calm ▸ congrArg (·.2.request) asked.symm
      exact ⟨fun _ => serving_of_calm { memory with solver } kept, fun _ => kept⟩
  refined memory program ready _ := by
    dsimp only
    have options := setting.solver.run_refine_halting memory.state.clauses
      memory.state.qualifiers program memory.state.candidates memory.solver
    apply Yields.ask
    · intro answer solver asked calm
      rcases options with answered | gaveUp
      · have kept : solver.request = none :=
          (congrArg (·.2.request) asked).symm.trans (answered.trans calm)
        exact ⟨kept, rfl, kept⟩
      · cases gaveUp.symm.trans asked
    · intro interrupt solver asked calm
      rcases options with answered | gaveUp
      · have kept : solver.request = none :=
          (congrArg (·.2.request) asked).symm.trans (answered.trans calm)
        exact ⟨fun _ => serving_of_calm _ kept, fun _ => kept⟩
      · cases gaveUp.symm.trans asked
        refine ⟨fun _ clauses qualifiers sent => ?_, nofun⟩
        cases sent
        exact ⟨rfl, served_of_ready ready⟩

/-! ## Recorded spaces -/

def Holds (unknown : String) (space : QualifierSpace) (memory : Memory σ) : Prop :=
  memory.state.qualifiers.find? unknown = some space

def holding (unknown : String) (space : QualifierSpace) : Promise σ where
  calm := Holds unknown space
  stopped _ := Holds unknown space
  renamed _ _ := id
  resumed _ _ before _ := before

def unasserted : Assertions where
  state _ := True
  grows _ _ := True
  later _ _ := True
  scope _ _ := True
  type _ _ := True
  goal _ _ := True
  fits _ _ _ := True
  scrutinee _ _ _ := True
  body _ _ := True

variable {unknown : String} {space : QualifierSpace}

theorem steady_holding : (holding unknown space).Steady setting where
  moved memory state qualifiers _ calm := by
    change state.qualifiers.find? unknown = some space
    rw [qualifiers]
    exact calm
  unfinished _ := id
  recorded memory other proposal _ new := by
    apply yields_addQualifiers
    apply Yields.ask
    · intro answer solver _ calm
      refine ⟨calm, rfl, ?_⟩
      exact (records_insert new answer).keeps unknown space calm
    · exact fun interrupt solver _ calm => ⟨fun _ => calm, fun _ => calm⟩

theorem yields_solve_holding {memory : Memory σ} (program : Program) :
    Yields setting (holding unknown space) (solve program) memory fun _ _ => True := by
  apply (yields_simplifyAll steady_holding).bind
  intro _ middle _
  have lowered : Yields setting (holding unknown space) lowerAll middle fun _ _ => True :=
    yields_lowerAll steady_holding (fun _ _ _ _ _ _ => trivial)
      (fun _ _ _ _ => .inr id) trivial
  apply lowered.bind
  intro _ last _
  refine (yields_refineCandidates steady_holding program fun _ => ?_).mono
    fun _ _ _ => trivial
  apply Yields.ask
  · exact fun answer solver _ calm => ⟨calm, rfl, calm⟩
  · exact fun interrupt solver _ calm => ⟨fun _ => calm, fun _ => calm⟩

theorem upholds_unasserted : Upholds setting (holding unknown space) unasserted where
  lasting := by constructor <;> intros <;> trivial
  types := by constructor <;> intros <;> trivial
  scopes := by constructor <;> intros <;> trivial
  programs := by constructor <;> intros <;> trivial
  check {memory env left right program} _ _ _ _ _ := by
    apply (yields_constrain steady_holding (.subtype env left right)).bind
    intro _ middle _
    apply yields_solveIncrementally
    · exact fun _ => (yields_solve_holding program).mono fun _ _ _ =>
        ⟨trivial, trivial, fun _ _ _ _ => trivial⟩
    · exact fun _ => ⟨trivial, trivial, fun _ _ _ _ => trivial⟩
  guard _ _ _ := fun calm => ⟨calm, trivial, trivial, trivial, trivial⟩
  signature _ _ _ _ _ _ _ :=
    (yields_caseSignature_assigns steady_holding (.inr fun _ _ => id)).mono
      fun _ _ _ => ⟨trivial, trivial, trivial⟩

/-- The unknown has the same space after a run, however the run ends. -/
def KeepsSpace (setting : Setting σ) (unknown : String) (space : QualifierSpace)
    (run : Search σ α) : Prop :=
  Keeps setting (Holds unknown space) run

theorem keepsSpace_iff {run : Search σ α} : KeepsSpace setting unknown space run ↔
    ∀ memory, Yields setting (holding unknown space) run memory fun _ _ => True := by
  apply forall_congr'
  intro memory
  apply imp_congr_right
  intro held
  rcases run setting memory with ⟨outcome, after⟩
  cases outcome with
  | ok program => exact ⟨fun held => ⟨held, trivial⟩, And.left⟩
  | error interrupt =>
      refine ⟨fun held => ⟨fun _ => held, fun _ => held⟩, fun ended => ?_⟩
      cases stops : interrupt.stops with
      | true => exact ended.1 stops
      | false => exact ended.2 stops

end Search

open Search in
/-- At each request to refine, every unknown of the clauses that are sent and of the types
assigned so far has a recorded space, and the spaces that are sent are the recorded ones. No
space that is recorded is ever overwritten.

The requests are those that the search notes when it is run with them noted; run so that it
stops at one of them, it leaves the state in which it made it. Solving, and generating terms,
bodies and goals for a continuation that keeps a space, keep it. -/
theorem spaces_precede_requests {setting : Setting σ} {goal : Goal} (known : goal.Known)
    (solver : σ) :
    (∀ result after, goal.search setting (setting.start solver) = (result, after) →
      ∃ requests, goal.search setting.noting (setting.noting.start ⟨solver, []⟩) =
          (result, after.withSolver ⟨after.solver, requests⟩) ∧
        ∀ answered clauses qualifiers,
          requests[answered]? = some (clauses, qualifiers) →
            ∃ stopped, goal.search setting.halting
                (setting.halting.start ⟨solver, answered, none⟩) =
                  (.error Solver.halted, stopped) ∧
              stopped.solver.request = some (clauses, qualifiers) ∧
              Served clauses qualifiers stopped.state) ∧
    ∀ unknown space,
      (∀ program, KeepsSpace setting unknown space (solve program)) ∧
      (∀ depth env shape found,
        (∀ env program, KeepsSpace setting unknown space (found env program)) →
          KeepsSpace setting unknown space (searchTerm depth env shape found)) ∧
      (∀ depth env type found,
        (∀ program, KeepsSpace setting unknown space (found program)) →
          KeepsSpace setting unknown space (searchBody depth env type found)) ∧
      ∀ depth env schema found,
        (∀ program, KeepsSpace setting unknown space (found program)) →
          KeepsSpace setting unknown space (searchGoal depth env schema found) := by
  constructor
  · intro result after ran
    rcases goal.search_noting setting solver with ⟨requests, noted⟩
    rw [ran] at noted
    refine ⟨requests, noted, fun answered clauses qualifiers sent => ?_⟩
    rcases goal.search_halting noted sent with ⟨interrupt, stopped, halted, stops, asked⟩
    have tracks : serving.Tracks setting.halting := tracks_serving
    have ended := known.yields_search tracks ⟨solver, answered, none⟩ rfl
    rw [halted] at ended
    rcases ended.1 stops clauses qualifiers asked with ⟨rfl, served⟩
    exact ⟨stopped, halted, asked, served⟩
  · intro unknown space
    have upholds : Upholds setting (holding unknown space) unasserted := upholds_unasserted
    refine ⟨fun program => ?_, fun depth env shape found keeps => ?_,
      fun depth env type found keeps => ?_, fun depth env schema found keeps => ?_⟩
    · exact keepsSpace_iff.mpr fun _ => yields_solve_holding program
    · exact keepsSpace_iff.mpr fun memory =>
        keepsTerms_searchTerm upholds depth memory env shape found trivial trivial trivial
          fun env program after _ _ _ _ => keepsSpace_iff.mp (keeps env program) after
    · exact keepsSpace_iff.mpr fun memory =>
        keepsBodies_searchBody upholds depth memory env type found trivial trivial trivial
          fun program after _ _ _ => keepsSpace_iff.mp (keeps program) after
    · exact keepsSpace_iff.mpr fun memory =>
        keeps_searchGoal upholds depth trivial trivial trivial
          fun program after _ _ _ => keepsSpace_iff.mp (keeps program) after

/-- The third request is about the type that `isOne` is applied at. -/
theorem isOne_request_served : ∃ clauses qualifiers, ∃ stopped : Memory (Halting Record),
    isOneGoal.search isOneSetting.halting (isOneSetting.halting.start ⟨{}, 2, none⟩) =
        (.error Solver.halted, stopped) ∧
      stopped.solver.request = some (clauses, qualifiers) ∧
      clauses.map (fun clause => clause.unknowns.toList) = [["_u3"]] ∧
      stopped.state.assignment.keys = ["_a0", "_a2"] ∧
      Search.Served clauses qualifiers stopped.state := by
  have third : (isOneGoal.search isOneSetting.noting
      (isOneSetting.noting.start ⟨{}, []⟩)).2.solver.requests[2]?.map
        (fun request => request.1.map fun clause => clause.unknowns.toList) =
          some [["_u3"]] := by
    decide +kernel
  have keys : (isOneGoal.search isOneSetting.halting
      (isOneSetting.halting.start ⟨{}, 2, none⟩)).2.state.assignment.keys =
        ["_a0", "_a2"] := by
    decide +kernel
  rcases ran : isOneGoal.search isOneSetting (isOneSetting.start {}) with ⟨result, after⟩
  have facts := @spaces_precede_requests Record isOneSetting isOneGoal isOneGoal_known {}
  rcases facts.1 result after ran with ⟨requests, noted, served⟩
  rw [noted] at third
  rcases Option.map_eq_some_iff.mp third with ⟨⟨clauses, qualifiers⟩, sent, unknowns⟩
  rcases served 2 clauses qualifiers sent with ⟨stopped, halted, asked, served⟩
  rw [halted] at keys
  exact ⟨clauses, qualifiers, stopped, halted, asked, unknowns, keys, served⟩

end Inhabit
