import Inhabit.Proofs.Search.Branches
import Mathlib.Data.List.Forall2

/-! The same search with two solvers.

The two runs are the same as long as both solvers give the same answers. The first
solver may give up, which ends its run; the other run then goes on by itself. -/

namespace Inhabit

def Memory.withSolver (memory : Memory σ) (solver : τ) : Memory τ where
  state := memory.state
  names := memory.names
  solver := solver

def Setting.withSolver (setting : Setting σ) (solver : Solver τ) : Setting τ :=
  { setting with solver }

namespace Search

structure Pairing (σ τ : Type) where
  /-- Both have given the same answers. -/
  alike : σ → τ → Prop
  /-- The first one has given up. -/
  behind : σ → τ → Prop

variable {σ τ α β : Type} {setting : Setting σ} {other : Solver τ}
  {pairing : Pairing σ τ}

/-- Either both runs come to the same, or the first one is stopped. -/
def Pairing.Meets (pairing : Pairing σ τ) :
    Except Interrupt α × Memory σ → Except Interrupt α × Memory τ → Prop
  | (result, memory), (replayed, replay) =>
      (∃ solver, pairing.alike memory.solver solver ∧ replayed = result ∧
        replay = memory.withSolver solver) ∨
      ∃ interrupt, interrupt.stops = true ∧ result = .error interrupt ∧
        pairing.behind memory.solver replay.solver

/-- The second search does what the first one does as long as that goes on, and goes on
by itself afterwards. -/
structure Replays (setting : Setting σ) (other : Solver τ) (pairing : Pairing σ τ)
    (run : Search σ α) (rerun : Search τ α) : Prop where
  together (memory : Memory σ) (solver : τ) (alike : pairing.alike memory.solver solver) :
    pairing.Meets (run setting memory)
      (rerun (setting.withSolver other) (memory.withSolver solver))
  onwards (gaveUp : σ) (memory : Memory τ) (behind : pairing.behind gaveUp memory.solver) :
    pairing.behind gaveUp (rerun (setting.withSolver other) memory).2.solver

structure Pairing.Answers (pairing : Pairing σ τ) (question : Solving σ α)
    (again : Solving τ α) : Prop where
  together (first : σ) (second : τ) (alike : pairing.alike first second) :
    (pairing.alike (question.run first).2 (again.run second).2 ∧
      (again.run second).1 = (question.run first).1) ∨
    ∃ interrupt, interrupt.stops = true ∧ (question.run first).1 = .error interrupt ∧
      pairing.behind (question.run first).2 (again.run second).2
  onwards (gaveUp : σ) (second : τ) (behind : pairing.behind gaveUp second) :
    pairing.behind gaveUp (again.run second).2

structure Pairing.Accords (pairing : Pairing σ τ) (solver : Solver σ) (other : Solver τ) :
    Prop where
  refine (clauses : List HornClause) (qualifiers : QualifierMap) (program : Program)
    (candidates : List Candidate) :
    pairing.Answers (solver.refine clauses qualifiers program candidates)
      (other.refine clauses qualifiers program candidates)
  prune (space : QualifierSpace) :
    pairing.Answers (solver.prune space) (other.prune space)

namespace Replays

theorem pure (value : α) :
    Replays setting other pairing (Pure.pure value) (Pure.pure value) where
  together _ solver alike := .inl ⟨solver, alike, rfl, rfl⟩
  onwards _ _ := id

theorem fail (failure : Failure) :
    Replays setting other pairing (Search.fail failure : Search σ α)
      (Search.fail failure) where
  together _ solver alike := .inl ⟨solver, alike, rfl, rfl⟩
  onwards _ _ := id

theorem modifyState (change : SearchState → SearchState) :
    Replays setting other pairing (Search.modifyState change)
      (Search.modifyState change) where
  together _ solver alike := .inl ⟨solver, alike, rfl, rfl⟩
  onwards _ _ := id

theorem naming (draw : Naming α) :
    Replays setting other pairing (Search.naming draw) (Search.naming draw) where
  together _ solver alike := .inl ⟨solver, alike, rfl, rfl⟩
  onwards _ _ := id

theorem rewrite (rewriting : Nat → Rewrite α) :
    Replays setting other pairing (Search.rewrite rewriting)
      (Search.rewrite rewriting) where
  together _ solver alike := .inl ⟨solver, alike, rfl, rfl⟩
  onwards _ _ := id

theorem applyAssignment (t : RefinedType) :
    Replays setting other pairing (Search.applyAssignment t)
      (Search.applyAssignment t) where
  together _ solver alike := .inl ⟨solver, alike, rfl, rfl⟩
  onwards _ _ := id

theorem bind {run : Search σ α} {rerun : Search τ α} {rest : α → Search σ β}
    {again : α → Search τ β} (first : Replays setting other pairing run rerun)
    (second : ∀ value, Replays setting other pairing (rest value) (again value)) :
    Replays setting other pairing (run >>= rest) (rerun >>= again) where
  together memory solver alike := by
    have met := first.together memory solver alike
    rw [run_bind, run_bind]
    revert met
    rcases run setting memory with ⟨result, after⟩
    rcases rerun (setting.withSolver other) (memory.withSolver solver) with
      ⟨replayed, replay⟩
    rintro (⟨last, alike, rfl, rfl⟩ | ⟨interrupt, stops, rfl, behind⟩)
    · cases replayed with
      | ok value => exact (second value).together after last alike
      | error interrupt => exact .inl ⟨last, alike, rfl, rfl⟩
    · refine .inr ⟨interrupt, stops, rfl, ?_⟩
      cases replayed with
      | ok value => exact (second value).onwards _ replay behind
      | error interrupt => exact behind
  onwards gaveUp memory behind := by
    have behind := first.onwards gaveUp memory behind
    rw [run_bind]
    revert behind
    rcases rerun (setting.withSolver other) memory with ⟨replayed, replay⟩
    intro behind
    cases replayed with
    | ok value => exact (second value).onwards _ replay behind
    | error interrupt => exact behind

theorem get_bind {rest : Memory σ → Search σ α} {again : Memory τ → Search τ α}
    (second : ∀ memory solver, Replays setting other pairing (rest memory)
      (again (memory.withSolver solver))) :
    Replays setting other pairing (get >>= rest) (get >>= again) where
  together memory solver := (second memory solver).together memory solver
  onwards gaveUp memory := (second (memory.withSolver gaveUp) memory.solver).onwards gaveUp memory

theorem read_bind {rest : Setting σ → Search σ α} {again : Setting τ → Search τ α}
    (second : Replays setting other pairing (rest setting)
      (again (setting.withSolver other))) :
    Replays setting other pairing (read >>= rest) (read >>= again) where
  together := second.together
  onwards := second.onwards

theorem ask {question : Solver σ → Solving σ α} {again : Solver τ → Solving τ α}
    (answers : pairing.Answers (question setting.solver) (again other)) :
    Replays setting other pairing (Search.ask question) (Search.ask again) where
  together memory solver alike := by
    rcases answers.together memory.solver solver alike with
      ⟨alike, same⟩ | ⟨interrupt, stops, stopped, behind⟩
    · exact .inl ⟨_, alike, same, rfl⟩
    · exact .inr ⟨interrupt, stops, stopped, behind⟩
  onwards gaveUp memory behind := answers.onwards gaveUp memory.solver behind

theorem ite {condition : Prop} [Decidable condition] {yes no : Search σ α}
    {yesAgain noAgain : Search τ α}
    (holds : condition → Replays setting other pairing yes yesAgain)
    (fails : ¬ condition → Replays setting other pairing no noAgain) :
    Replays setting other pairing (if condition then yes else no)
      (if condition then yesAgain else noAgain) := by
  by_cases condition
  · rw [if_pos ‹_›, if_pos ‹_›]
    exact holds ‹_›
  · rw [if_neg ‹_›, if_neg ‹_›]
    exact fails ‹_›

theorem mapM {elements : List β} {body : β → Search σ α} {again : β → Search τ α}
    (each : ∀ element, Replays setting other pairing (body element) (again element)) :
    Replays setting other pairing (elements.mapM body) (elements.mapM again) := by
  induction elements with
  | nil => exact pure []
  | cons element rest induction =>
      rw [List.mapM_cons, List.mapM_cons]
      exact (each element).bind fun _ => induction.bind fun _ => pure _

theorem forM {elements : List β} {body : β → Search σ Unit} {again : β → Search τ Unit}
    (each : ∀ element, Replays setting other pairing (body element) (again element)) :
    Replays setting other pairing (elements.forM body) (elements.forM again) := by
  induction elements with
  | nil => exact pure ()
  | cons element rest induction => exact (each element).bind fun _ => induction

theorem forIn {elements : List β} {body : β → PUnit → Search σ (ForInStep PUnit)}
    {again : β → PUnit → Search τ (ForInStep PUnit)}
    (each : ∀ element, Replays setting other pairing (body element ⟨⟩) (again element ⟨⟩)) :
    Replays setting other pairing (forIn elements ⟨⟩ body) (forIn elements ⟨⟩ again) := by
  induction elements with
  | nil => exact pure PUnit.unit
  | cons element rest induction =>
      rw [List.forIn_cons, List.forIn_cons]
      apply (each element).bind
      intro step
      cases step with
      | done last => exact pure last
      | yield _ => exact induction

theorem choose_of_stops {option : β} {rest : List β} {none : Failure}
    {attempt : β → Search σ α} {memory after : Memory σ} {interrupt : Interrupt}
    (stops : interrupt.stops = true)
    (ran : attempt option setting memory = (.error interrupt, after)) :
    Search.choose (option :: rest) none attempt setting memory =
      (.error interrupt, after) := by
  unfold Search.choose
  rw [ran]
  cases interrupt with
  | trapped _ => rfl
  | unfinished => rfl
  | failed failure => exact if_pos stops

theorem choose_solver (none : Failure) {option : β} {rest : List β}
    {attempt : β → Search σ α} {memory : Memory σ} {holds : σ → Prop}
    (first : holds (attempt option setting memory).2.solver)
    (later : ∀ failure after, holds after.solver →
      holds (Search.choose rest failure attempt setting after).2.solver) :
    holds (Search.choose (option :: rest) none attempt setting memory).2.solver := by
  unfold Search.choose
  revert first
  rcases attempt option setting memory with ⟨result, after⟩
  intro first
  cases result with
  | ok value => exact first
  | error interrupt =>
      cases interrupt with
      | trapped _ => exact first
      | unfinished => exact first
      | failed failure =>
          dsimp only
          split
          · exact first
          · exact later failure { after with state := memory.state } first

theorem choose {γ : Type} {options : List β} {others : List γ} {none : Failure}
    {attempt : β → Search σ α} {again : γ → Search τ α}
    (each : options.Forall₂ (fun option same =>
      Replays setting other pairing (attempt option) (again same)) others) :
    Replays setting other pairing (Search.choose options none attempt)
      (Search.choose others none again) := by
  induction each generalizing none with
  | nil => exact fail none
  | @cons option same rest others first _ induction =>
      -- Stopped in its first option, the first run leaves the others to the second one.
      have later (gaveUp : σ) (failure : Failure) (after : Memory τ)
          (behind : pairing.behind gaveUp after.solver) :=
        (@induction failure).onwards gaveUp after behind
      constructor
      · intro memory solver alike
        have met := first.together memory solver alike
        rcases ran : attempt option setting memory with ⟨result, after⟩
        rcases reran : again same (setting.withSolver other) (memory.withSolver solver) with
          ⟨replayed, replay⟩
        rw [ran, reran] at met
        rcases met with ⟨last, alike, rfl, rfl⟩ | ⟨interrupt, stops, rfl, behind⟩
        · unfold Search.choose
          rw [ran, reran]
          cases replayed with
          | ok value => exact .inl ⟨last, alike, rfl, rfl⟩
          | error interrupt =>
              cases interrupt with
              | trapped _ => exact .inl ⟨last, alike, rfl, rfl⟩
              | unfinished => exact .inl ⟨last, alike, rfl, rfl⟩
              | failed failure =>
                  dsimp only
                  split
                  · exact .inl ⟨last, alike, rfl, rfl⟩
                  · exact induction.together { after with state := memory.state } last alike
        · rw [choose_of_stops stops ran]
          rw [show replay = _ from (congrArg Prod.snd reran).symm] at behind
          exact .inr ⟨interrupt, stops, rfl, choose_solver none behind (later after.solver)⟩
      · exact fun gaveUp memory behind =>
          choose_solver none (first.onwards gaveUp memory behind) (later gaveUp)

theorem choose_same {options : List β} {none : Failure} {attempt : β → Search σ α}
    {again : β → Search τ α}
    (each : ∀ option, Replays setting other pairing (attempt option) (again option)) :
    Replays setting other pairing (Search.choose options none attempt)
      (Search.choose options none again) :=
  choose (List.forall₂_same.mpr fun option _ => each option)

end Replays

/-! ## Parts that leave the solver alone -/

def ReplaysTerms (setting : Setting σ) (other : Solver τ) (pairing : Pairing σ τ)
    (search : Environment → Shape → TermSink σ → Search σ Program)
    (again : Environment → Shape → TermSink τ → Search τ Program) : Prop :=
  ∀ env shape (found : TermSink σ) (sameFound : TermSink τ),
    (∀ env program,
      Replays setting other pairing (found env program) (sameFound env program)) →
      Replays setting other pairing (search env shape found) (again env shape sameFound)

def ReplaysBodies (setting : Setting σ) (other : Solver τ) (pairing : Pairing σ τ)
    (search : BodySearch σ) (again : BodySearch τ) : Prop :=
  ∀ env type (found : Sink σ) (sameFound : Sink τ),
    (∀ program, Replays setting other pairing (found program) (sameFound program)) →
      Replays setting other pairing (search env type found) (again env type sameFound)

theorem replays_bindArguments (constructorName : String) (result : RefinedType)
    (parameters arguments : List RefinedType) :
    Replays setting other pairing
      (bindArguments constructorName result parameters arguments)
      (bindArguments constructorName result parameters arguments) := by
  induction parameters, arguments using bindArguments.induct with
  | case1 name refinement parameters argument arguments induction =>
      exact (Replays.modifyState _).bind fun _ => induction
  | case2 parameters argument arguments parameter other =>
      rw [bindArguments, bindArguments]
      · exact .fail _
      all_goals exact other
  | case3 parameters arguments other₁ other₂ =>
      rw [bindArguments, bindArguments]
      · exact .pure ()
      all_goals assumption

theorem replays_matchConstructor (constructorName : String)
    (result scrutinee : RefinedType) :
    Replays setting other pairing (matchConstructor constructorName result scrutinee)
      (matchConstructor constructorName result scrutinee) := by
  unfold matchConstructor
  split
  · exact .ite (fun _ => replays_bindArguments _ _ _ _) fun _ => .fail _
  · exact .fail _

theorem replays_searchCases {searchBody : BodySearch σ} {bodyAgain : BodySearch τ}
    (bodies : ReplaysBodies setting other pairing searchBody bodyAgain)
    {env : Environment} {subject : String} {scrutinee type : RefinedType}
    {found : List (Case Program) → Search σ Program}
    {sameFound : List (Case Program) → Search τ Program}
    (same : ∀ cases, Replays setting other pairing (found cases) (sameFound cases))
    (constructors : List String) (done : List (Case Program)) :
    Replays setting other pairing
      (searchCases searchBody env subject scrutinee type found constructors done)
      (searchCases bodyAgain env subject scrutinee type sameFound constructors done) := by
  induction constructors generalizing done with
  | nil => exact same done
  | cons constructorName rest induction =>
      unfold searchCases searchCase
      split
      · exact .fail _
      · refine (Replays.naming _).bind fun signature => ?_
        refine (replays_matchConstructor _ _ _).bind fun _ => ?_
        refine (Replays.applyAssignment _).bind fun signature => ?_
        refine (Replays.mapM fun _ => .naming _).bind fun binders => ?_
        exact bodies _ _ _ _ fun body => induction _

theorem replays_nameScrutinee (env : Environment) (scrutinee : Program) :
    Replays setting other pairing (nameScrutinee env scrutinee)
      (nameScrutinee env scrutinee) := by
  unfold nameScrutinee
  split
  · apply Replays.ite
    · exact fun _ => (Replays.naming _).bind fun name => .pure _
    · exact fun _ => .pure _
  · exact (Replays.naming _).bind fun name => .pure _

theorem replaysBodies_searchConditionalWith {searchBody : BodySearch σ}
    {bodyAgain : BodySearch τ}
    (bodies : ReplaysBodies setting other pairing searchBody bodyAgain) :
    ReplaysBodies setting other pairing (searchConditionalWith searchBody)
      (searchConditionalWith bodyAgain) := by
  intro env type found sameFound same
  refine (Replays.naming _).bind fun guard => (Replays.modifyState _).bind fun _ => ?_
  exact bodies _ _ _ _ fun thenBranch => bodies _ _ _ _ fun elseBranch => same _

theorem replaysBodies_searchFunctionWith {searchScalar : BodySearch σ}
    {scalarAgain : BodySearch τ}
    (scalars : ReplaysBodies setting other pairing searchScalar scalarAgain) :
    ReplaysBodies setting other pairing (searchFunctionWith searchScalar)
      (searchFunctionWith scalarAgain) := by
  intro env type
  induction type using Skeleton.arity.induct generalizing env with
  | case1 base arguments refinement => exact scalars env _
  | case2 name argument result induction =>
      exact fun found sameFound same => induction _ _ _ fun body => same _

theorem replaysBodies_exhausted (budget : Budget) :
    ReplaysBodies setting other pairing (exhausted budget) (exhausted budget) :=
  fun _ _ _ _ _ => .fail _

/-! ## Solve steps -/

section Accordant

variable (accords : pairing.Accords setting.solver other)

include accords

theorem replays_addQualifiers (unknown : String) (space : QualifierSpace) :
    Replays setting other pairing (addQualifiers unknown space)
      (addQualifiers unknown space) :=
  (Replays.ask (accords.prune space)).bind fun _ => .modifyState _

theorem replays_lower (constraint : Constraint) :
    Replays setting other pairing (lower constraint) (lower constraint) := by
  apply Replays.get_bind
  intro memory solver
  split
  case h_1 env left right =>
    apply Replays.ite
    · exact fun _ => .modifyState _
    · intro _
      split
      · apply Replays.ite
        · exact fun _ => .ite (fun _ => .pure _) fun _ => .modifyState _
        · exact fun _ => .fail _
      · exact .fail _
  case h_2 env base refinement =>
    refine (Replays.forIn fun unknown => ?_).bind fun _ => .pure _
    apply Replays.read_bind
    exact (replays_addQualifiers accords _ _).bind fun _ => .pure _
  case h_3 env pending unknown =>
    apply Replays.ite
    · exact fun _ => .pure _
    · exact fun _ => .read_bind (replays_addQualifiers accords _ _)
  all_goals exact .fail _

theorem replays_lowerAll : Replays setting other pairing lowerAll lowerAll := by
  apply Replays.get_bind
  intro memory solver
  exact (Replays.modifyState _).bind fun _ => .forM fun constraint =>
    replays_lower accords constraint

theorem replays_refineCandidates (program : Program) :
    Replays setting other pairing (refineCandidates program) (refineCandidates program) := by
  apply Replays.get_bind
  intro memory solver
  refine (Replays.modifyState _).bind fun _ => ?_
  refine (Replays.ask (accords.refine _ _ _ _)).bind fun candidates => ?_
  exact .ite (fun _ => .fail _) fun _ => .modifyState _

theorem replays_solve (program : Program) :
    Replays setting other pairing (solve program) (solve program) :=
  (Replays.rewrite _).bind fun _ => (replays_lowerAll accords).bind fun _ =>
    replays_refineCandidates accords program

theorem replays_solveIncrementally (program : Program) :
    Replays setting other pairing (solveIncrementally program)
      (solveIncrementally program) :=
  .read_bind (.ite (fun _ => replays_solve accords program) fun _ => .pure _)

/-! ## Terms -/

theorem replaysTerms_searchSymbol :
    ReplaysTerms setting other pairing searchSymbol searchSymbol := by
  intro env shape found sameFound same
  apply Replays.choose_same
  rintro ⟨name, schema⟩
  refine (Replays.naming _).bind fun type => (Replays.modifyState _).bind fun _ => ?_
  exact (replays_solveIncrementally accords _).bind fun _ => same _ _

theorem replaysTerms_searchApplicationWith
    {searchPart : Environment → Shape → TermSink σ → Search σ Program}
    {partAgain : Environment → Shape → TermSink τ → Search τ Program}
    (parts : ReplaysTerms setting other pairing searchPart partAgain) :
    ReplaysTerms setting other pairing (searchApplicationWith searchPart)
      (searchApplicationWith partAgain) := by
  intro env shape found sameFound same
  apply Replays.ite
  · exact fun _ => .fail _
  · refine fun _ => (Replays.naming _).bind fun typeVar => ?_
    refine (Replays.naming _).bind fun parameter => ?_
    apply parts
    intro env function
    split
    · exact .fail _
    · refine (Replays.applyAssignment _).bind fun expected => ?_
      apply parts
      intro env argument
      refine (Replays.modifyState _).bind fun _ => ?_
      refine (replays_solveIncrementally accords argument).bind fun _ => ?_
      apply Replays.ite
      · exact fun _ => same _ _
      · exact fun _ => (Replays.naming _).bind fun ghost => same _ _

theorem replaysTerms_searchTerm (depth : Nat) :
    ReplaysTerms setting other pairing (searchTerm depth) (searchTerm depth) := by
  induction depth with
  | zero =>
      intro env shape found sameFound same
      have symbols := replaysTerms_searchSymbol accords env shape found sameFound same
      exact .choose (.cons symbols (.cons (.fail _) .nil))
  | succ depth induction =>
      intro env shape found sameFound same
      have symbols := replaysTerms_searchSymbol accords env shape found sameFound same
      have applications :=
        replaysTerms_searchApplicationWith accords induction env shape found sameFound same
      exact .choose (.cons symbols (.cons applications .nil))

/-! ## Bodies -/

theorem replaysBodies_searchGuess (depth : Nat) :
    ReplaysBodies setting other pairing (searchGuess depth) (searchGuess depth) := by
  intro env type found sameFound same
  apply replaysTerms_searchTerm accords
  intro env program
  refine (Replays.modifyState _).bind fun _ => ?_
  exact (replays_solveIncrementally accords program).bind fun _ => same _

theorem replaysBodies_searchMatchWith {searchBody : BodySearch σ} {bodyAgain : BodySearch τ}
    (bodies : ReplaysBodies setting other pairing searchBody bodyAgain) :
    ReplaysBodies setting other pairing (searchMatchWith searchBody)
      (searchMatchWith bodyAgain) := by
  intro env type found sameFound same
  apply Replays.choose_same
  rintro ⟨name, datatype⟩
  refine (Replays.mapM fun _ => (Replays.naming _).bind fun _ => .pure _).bind
    fun arguments => ?_
  apply Replays.read_bind
  apply replaysTerms_searchTerm accords
  intro env scrutinee
  refine (Replays.applyAssignment _).bind fun known => ?_
  apply Replays.ite
  · exact fun _ => .fail _
  · refine fun _ => (replays_nameScrutinee _ _).bind fun named => ?_
    exact replays_searchCases bodies (fun cases => same _) _ _

theorem replaysBodies_searchBodyWith (guessDepth : Nat)
    {searchMatch searchConditional : BodySearch σ}
    {matchAgain conditionalAgain : BodySearch τ}
    (matching : ReplaysBodies setting other pairing searchMatch matchAgain)
    (conditional : ReplaysBodies setting other pairing searchConditional conditionalAgain) :
    ReplaysBodies setting other pairing
      (searchBodyWith guessDepth searchMatch searchConditional)
      (searchBodyWith guessDepth matchAgain conditionalAgain) := by
  apply replaysBodies_searchFunctionWith
  intro env type found sameFound same
  have guesses := replaysBodies_searchGuess accords guessDepth env type found sameFound same
  exact .choose (.cons guesses (.cons (matching env type found sameFound same)
    (.cons (conditional env type found sameFound same) .nil)))

theorem replaysBodies_searchMatching (guessDepth : Nat)
    {fewer : Option (Nat → BodySearch σ)} {fewerAgain : Option (Nat → BodySearch τ)}
    (budgets : Option.Rel (fun search again => ∀ matching,
      ReplaysBodies setting other pairing (search matching) (again matching))
        fewer fewerAgain) (matching : Nat) :
    ReplaysBodies setting other pairing (searchMatching guessDepth fewer matching)
      (searchMatching guessDepth fewerAgain matching) := by
  have conditionals (matching : Nat) : ReplaysBodies setting other pairing
      (searchMatching.withConditional fewer matching)
      (searchMatching.withConditional fewerAgain matching) := by
    cases budgets with
    | none => exact replaysBodies_exhausted _
    | some searches => exact replaysBodies_searchConditionalWith (searches matching)
  induction matching with
  | zero =>
      exact replaysBodies_searchBodyWith accords guessDepth (replaysBodies_exhausted _)
        (conditionals 0)
  | succ matching induction =>
      exact replaysBodies_searchBodyWith accords guessDepth
        (replaysBodies_searchMatchWith accords induction) (conditionals (matching + 1))

theorem replaysBodies_searchBranching (guessDepth conditional matching : Nat) :
    ReplaysBodies setting other pairing (searchBranching guessDepth conditional matching)
      (searchBranching guessDepth conditional matching) := by
  induction conditional generalizing matching with
  | zero => exact replaysBodies_searchMatching accords guessDepth .none matching
  | succ conditional induction =>
      exact replaysBodies_searchMatching accords guessDepth (.some induction) matching

/-! ## Goals -/

theorem replays_searchGoal (depth : Depth) (env : Environment) (schema : Schema)
    {found : Sink σ} {sameFound : Sink τ}
    (same : ∀ program, Replays setting other pairing (found program) (sameFound program)) :
    Replays setting other pairing (searchGoal depth env schema found)
      (searchGoal depth env schema sameFound) := by
  induction schema generalizing env with
  | forAll name body induction => exact induction _
  | mono type =>
      apply Replays.ite
      · refine fun _ => .read_bind ((Replays.naming _).bind fun scope => ?_)
        exact replaysBodies_searchBranching accords _ _ _ _ _ _ _ fun body => same _
      · exact fun _ => replaysBodies_searchBranching accords _ _ _ _ _ _ _ same

end Accordant

end Search

theorem Goal.replays_search {setting : Setting σ} {other : Solver τ}
    {pairing : Search.Pairing σ τ} (accords : pairing.Accords setting.solver other)
    (goal : Goal) :
    Search.Replays setting other pairing goal.search goal.search := by
  apply Search.Replays.read_bind
  apply Search.replays_searchGoal accords
  intro program
  apply (Search.replays_solve accords program).bind
  exact fun _ => .get_bind fun memory solver => .pure _

end Inhabit
