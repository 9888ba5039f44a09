import Inhabit.Proofs.Search.Branches
import Inhabit.Solving.Scripted

/-! Branches do not see each other.

A choice point attempts its options one after the other, each in the state that the
choice was met in. What an attempt that failed has left behind in the state is gone
when the next option is attempted and when the choice itself fails; the names it has
drawn stay drawn. -/

namespace Inhabit

namespace Search

variable {σ : Type} {α β : Type}

/-- The options were attempted in turn, each in the given state, and failed. The last
failure is handed on, and so is everything but the state. -/
inductive Abandoned (setting : Setting σ) (attempt : α → Search σ β)
    (state : SearchState) : List α → Failure × Memory σ → Failure × Memory σ → Prop where
  | none (before : Failure × Memory σ) : Abandoned setting attempt state [] before before
  | next {option : α} {rest : List α} {earlier failure : Failure}
      {memory middle : Memory σ} {last : Failure × Memory σ}
      (failed : attempt option setting { memory with state } =
        (.error (.failed failure), middle))
      (recoverable : failure.isFatal = false)
      (others : Abandoned setting attempt state rest (failure, { middle with state }) last) :
      Abandoned setting attempt state (option :: rest) (earlier, memory) last

/-- How a choice may end: either all options have been abandoned, or one that came
after such options has found something or stopped the search, and no option after it
has been attempted. -/
inductive Chosen (setting : Setting σ) (options : List α) (none : Failure)
    (attempt : α → Search σ β) (memory : Memory σ) : Except Interrupt β × Memory σ → Prop
    where
  | exhausted {failure : Failure} {last : Memory σ}
      (abandoned : Abandoned setting attempt memory.state options (none, memory)
        (failure, last)) :
      Chosen setting options none attempt memory
        (.error (.failed failure), { last with state := memory.state })
  | taken {tried rest : List α} {option : α} {failure : Failure} {last : Memory σ}
      {ended : Except Interrupt β × Memory σ} (split : options = tried ++ option :: rest)
      (abandoned : Abandoned setting attempt memory.state tried (none, memory)
        (failure, last))
      (ran : attempt option setting { last with state := memory.state } = ended)
      (final : ∀ interrupt, ended.1 = .error interrupt → interrupt.stops = true) :
      Chosen setting options none attempt memory ended

variable {setting : Setting σ} {options : List α} {none : Failure}
  {attempt : α → Search σ β} {memory : Memory σ}

theorem Chosen.next {option : α} {failure : Failure} {middle : Memory σ}
    {ended : Except Interrupt β × Memory σ}
    (failed : attempt option setting memory = (.error (.failed failure), middle))
    (recoverable : failure.isFatal = false)
    (chosen : Chosen setting options failure attempt
      { middle with state := memory.state } ended) :
    Chosen setting (option :: options) none attempt memory ended := by
  cases chosen with
  | exhausted abandoned => exact .exhausted (.next failed recoverable abandoned)
  | taken split abandoned ran final =>
      exact .taken (congrArg (option :: ·) split) (.next failed recoverable abandoned) ran
        final

theorem chosen_choose (setting : Setting σ) (options : List α) (none : Failure)
    (attempt : α → Search σ β) (memory : Memory σ) :
    Chosen setting options none attempt memory
      (Search.choose options none attempt setting memory) := by
  induction options generalizing none memory with
  | nil => exact .exhausted (.none _)
  | cons option rest induction =>
      have first (final : ∀ interrupt, (attempt option setting memory).1 =
          .error interrupt → interrupt.stops = true) :
          Chosen setting (option :: rest) none attempt memory
            (attempt option setting memory) :=
        .taken (List.nil_append _).symm (.none (none, memory)) rfl final
      unfold Search.choose
      cases ran : attempt option setting memory with
      | mk outcome middle =>
          rw [ran] at first
          cases outcome with
          | ok _ => exact first (by rintro _ ⟨⟩)
          | error interrupt =>
              cases interrupt with
              | trapped _ | unfinished => exact first (by rintro _ ⟨⟩; rfl)
              | failed failure =>
                  dsimp only
                  cases fatal : failure.isFatal with
                  | true => exact first (by rintro _ ⟨⟩; exact fatal)
                  | false => exact (induction failure _).next ran fatal

/-! ## Failures -/

def Restores (setting : Setting σ) (run : Search σ α) : Prop :=
  ∀ memory failure after, run setting memory = (.error (.failed failure), after) →
    failure.isFatal = false → after.state = memory.state

theorem restores_choose : Restores setting (Search.choose options none attempt) := by
  intro memory failure after ran recoverable
  have chosen := chosen_choose setting options none attempt memory
  rw [ran] at chosen
  cases chosen with
  | exhausted => rfl
  | taken _ _ _ final => cases recoverable.symm.trans (final _ rfl)

theorem Restores.naming_bind {draw : Naming α} {rest : α → Search σ β}
    (restores : ∀ value, Restores setting (rest value)) :
    Restores setting (naming draw >>= rest) :=
  fun memory => restores _ { memory with names := (draw.run memory.names).2 }

theorem restores_searchTerm (depth : Nat) (env : Environment) (shape : Shape)
    (found : TermSink σ) : Restores setting (searchTerm depth env shape found) := by
  cases depth with
  | zero => exact restores_choose
  | succ depth => exact restores_choose

theorem restores_searchFunctionWith {searchScalar : BodySearch σ}
    (restores : ∀ env type found, Restores setting (searchScalar env type found))
    (env : Environment) (type : RefinedType) (found : Sink σ) :
    Restores setting (searchFunctionWith searchScalar env type found) := by
  induction type using Skeleton.arity.induct generalizing env found with
  | case1 base arguments refinement => exact restores env _ found
  | case2 name argument result induction => exact induction _ _

theorem restores_searchBodyWith (guessDepth : Nat)
    (searchMatch searchConditional : BodySearch σ) (env : Environment)
    (type : RefinedType) (found : Sink σ) :
    Restores setting
      (searchBodyWith guessDepth searchMatch searchConditional env type found) :=
  restores_searchFunctionWith (fun _ _ _ => restores_choose) env type found

theorem restores_searchBody (depth : Depth) (env : Environment) (type : RefinedType)
    (found : Sink σ) : Restores setting (searchBody depth env type found) := by
  rcases depth with ⟨application, matching, conditional⟩
  cases conditional <;> cases matching <;> exact restores_searchBodyWith _ _ _ env type found

theorem restores_searchGoal (depth : Depth) (env : Environment) (schema : Schema)
    (found : Sink σ) : Restores setting (searchGoal depth env schema found) := by
  induction schema generalizing env with
  | forAll name body induction => exact induction (env.addTypeVar name)
  | mono type =>
      unfold searchGoal
      split
      · intro memory
        exact Restores.naming_bind (fun _ => restores_searchBody _ _ _ _) memory
      · exact restores_searchBody depth env type found

end Search

/-- Every option of a choice is attempted in the state that the choice was met in, up
to the first that succeeds or stops the search. A search that fails leaves the state as
it was, whatever was to be done with what it finds. -/
theorem branches_are_isolated {σ : Type} (setting : Setting σ) :
    (∀ {α β : Type} (options : List α) (none : Failure) (attempt : α → Search σ β)
      (memory : Memory σ), Search.Chosen setting options none attempt memory
        (Search.choose options none attempt setting memory)) ∧
      ∀ (depth : Depth) (env : Environment),
        (∀ schema found,
          Search.Restores setting (Search.searchGoal depth env schema found)) ∧
        (∀ type found, Search.Restores setting (Search.searchBody depth env type found)) ∧
        ∀ shape found,
          Search.Restores setting (Search.searchTerm depth.application env shape found) :=
  ⟨Search.chosen_choose setting, fun depth env =>
    ⟨Search.restores_searchGoal depth env, Search.restores_searchBody depth env,
      Search.restores_searchTerm depth.application env⟩⟩

namespace Search

def patient : Setting Record where
  parameters := { incremental := false }
  solver := .fixed true
  sources := .none
  steps := 10

def spoil (shape : Shape) : TermSink Record := fun env program => do
  constrain (.subtype env program.type (.atom .int .top))
  let _ ← fresh Stem.ghost
  Search.fail (.noSymbols shape)

/-- Two symbols are tried and given up. Of the attempts only the names are left. -/
theorem spoiled_state_restored :
    let env := (Environment.addVariable ∅ "p" (.atom .bool .top)).addVariable "q"
      (.atom .bool .top)
    let run := searchTerm 0 env (.atom .bool ()) (spoil (.atom .bool ())) patient
      (patient.start {})
    run.1 = .error (.failed (.depthExhausted .application)) ∧ run.2.names = ⟨2⟩ ∧
      run.2.state = (patient.start {}).state := by
  intro env run
  have failed : run.1 = .error (.failed (.depthExhausted .application)) := by rfl
  exact ⟨failed, by rfl, ((branches_are_isolated patient).2 ⟨0, 0, 0⟩ env).2.2 _ _ _ _ _
    (Prod.ext failed rfl) rfl⟩

end Search

end Inhabit
