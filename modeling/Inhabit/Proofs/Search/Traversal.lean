import Inhabit.Proofs.Search.Assertions

/-! What a search maintains along its branches.

Where each of its steps upholds the assertions, so does the search, with whatever it
is told to do with what it finds. -/

namespace Inhabit

namespace Search

variable {σ : Type} {setting : Setting σ} {promise : Promise σ} {assertions : Assertions}

/-! ## Terms -/

structure IsTerm (assertions : Assertions) (state : SearchState) (shape : Shape)
    (program : Program) : Prop where
  type : assertions.type state program.type
  fits : assertions.fits state shape program.type
  body : assertions.body state program

/-- Wherever a term is handed on, the rest of the search comes to the result. -/
def AcceptsTerms (setting : Setting σ) (promise : Promise σ) (assertions : Assertions)
    (result : Program → Memory σ → Prop) (state : SearchState) (shape : Shape)
    (found : TermSink σ) : Prop :=
  ∀ env program (after : Memory σ), assertions.state after.state →
    assertions.grows state after.state → assertions.scope after.state env →
      IsTerm assertions after.state shape program →
        Yields setting promise (found env program) after result

def KeepsTerms (setting : Setting σ) (promise : Promise σ) (assertions : Assertions)
    (result : Program → Memory σ → Prop)
    (search : Environment → Shape → TermSink σ → Search σ Program) : Prop :=
  ∀ (memory : Memory σ) env shape found, assertions.state memory.state →
    assertions.scope memory.state env →
      assertions.type memory.state (Shape.refineTop shape) →
        AcceptsTerms setting promise assertions result memory.state shape found →
          Yields setting promise (search env shape found) memory result

section Upheld

variable (upholds : Upholds setting promise assertions)
  {result : Program → Memory σ → Prop}

include upholds

theorem keepsTerms_searchSymbol :
    KeepsTerms setting promise assertions result searchSymbol := by
  intro memory env shape found state scope top accepts
  apply Yields.choose rfl
  rintro ⟨name, schema⟩ listed other same
  apply Yields.naming_bind
  intro names
  dsimp only
  rw [← same] at state scope top accepts
  have type := upholds.types.symbol other.names scope listed
  have renamed : assertions.state { other with names }.state := state
  have checked := upholds.check renamed scope (upholds.types.bottom type) top
    (upholds.programs.symbol name type)
  apply checked.bind_bind
  intro _ after holds
  have later := upholds.lasting.laterOfGrows holds.2.1
  have typeAfter := upholds.lasting.type later type
  apply accepts env _ after holds.1 holds.2.1 (upholds.lasting.scope later scope)
  exact ⟨typeAfter, holds.2.2 _ _ rfl rfl, upholds.programs.symbol name typeAfter⟩

theorem IsTerm.mono {before after : SearchState} {shape : Shape} {program : Program}
    (term : IsTerm assertions before shape program)
    (grows : assertions.grows before after) : IsTerm assertions after shape program :=
  have later := upholds.lasting.laterOfGrows grows
  ⟨upholds.lasting.type later term.type, upholds.lasting.fits grows term.fits,
    upholds.lasting.body later term.body⟩

theorem IsTerm.application {state : SearchState} {parameter : String} {typeVar : Shape}
    {shape : Shape} {function argument : Program} {formal : String}
    {expected result : RefinedType}
    (left : IsTerm assertions state (.function parameter typeVar shape) function)
    (applied : function.type = .function formal expected result)
    (right : assertions.body state argument) :
    IsTerm assertions state shape (.app function argument result) ∧
      ∀ name, IsTerm assertions state shape
        (.app function argument (RefinedType.renameVar result formal name expected)) := by
  have type := left.type
  have fits := left.fits
  rw [applied] at type fits
  have resultType := upholds.types.result type
  have resultFits := upholds.types.fitsResult fits
  constructor
  · exact ⟨resultType, resultFits, upholds.programs.application left.body right resultType⟩
  · intro name
    have renamed := upholds.types.renamed formal name expected resultType
    exact ⟨renamed, upholds.types.fitsRenamed _ _ _ resultFits,
      upholds.programs.application left.body right renamed⟩

theorem keepsTerms_searchApplicationWith
    {searchPart : Environment → Shape → TermSink σ → Search σ Program}
    (keeps : KeepsTerms setting promise assertions result searchPart) :
    KeepsTerms setting promise assertions result (searchApplicationWith searchPart) := by
  intro memory env shape found state scope top accepts
  unfold searchApplicationWith
  split
  · exact Yields.fail rfl
  · apply Yields.naming_bind
    intro names
    apply Yields.naming_bind
    intro names
    dsimp only
    apply keeps { memory with names } _ _ _ state scope (upholds.types.functionTop _ _ top)
    intro env function middle state grows scope functionTerm
    dsimp only
    cases applied : function.type with
    | scalar => exact Yields.fail rfl
    | function formal expected result =>
        have expectedType := upholds.types.argument (applied ▸ functionTerm.type)
        apply Yields.applyAssignment_bind
        apply keeps _ _ _ _ state scope
          (upholds.types.top (upholds.types.applied state expectedType))
        intro env argument last state growsOn scope argumentTerm
        have expectedLast :=
          upholds.lasting.type (upholds.lasting.laterOfGrows growsOn) expectedType
        have checked :=
          upholds.check state scope argumentTerm.type expectedLast argumentTerm.body
        apply checked.bind_bind
        intro _ after holds
        have further := upholds.lasting.laterOfGrows holds.2.1
        have growsAfter := upholds.lasting.trans growsOn holds.2.1
        have growsAll := upholds.lasting.trans grows growsAfter
        have scopeAfter := upholds.lasting.scope further scope
        have application := (functionTerm.mono upholds growsAfter).application upholds
          applied (upholds.lasting.body further argumentTerm.body)
        split
        · exact accepts env _ after holds.1 growsAll scopeAfter application.1
        · apply Yields.naming_bind
          intro names
          have typeAfter := upholds.lasting.type further argumentTerm.type
          exact accepts _ _ { after with names } holds.1 growsAll
            (upholds.scopes.ghost _ scopeAfter typeAfter) (application.2 _)

theorem keepsTerms_searchTerm (depth : Nat) :
    KeepsTerms setting promise assertions result (searchTerm depth) := by
  induction depth with
  | zero =>
      intro memory env shape found state scope top accepts
      apply Yields.choose rfl
      intro search listed other same
      rw [← same] at state scope top accepts
      rcases List.mem_cons.mp listed with rfl | listed
      · exact keepsTerms_searchSymbol upholds other env shape found state scope top accepts
      · rw [List.mem_singleton.mp listed]
        exact Yields.fail rfl
  | succ depth induction =>
      intro memory env shape found state scope top accepts
      apply Yields.choose rfl
      intro search listed other same
      rw [← same] at state scope top accepts
      rcases List.mem_cons.mp listed with rfl | listed
      · exact keepsTerms_searchSymbol upholds other env shape found state scope top accepts
      · rw [List.mem_singleton.mp listed]
        exact keepsTerms_searchApplicationWith upholds induction other env shape found
          state scope top accepts

/-! ## Bodies -/

omit upholds in
def KeepsBodies (setting : Setting σ) (promise : Promise σ) (assertions : Assertions)
    (result : Program → Memory σ → Prop) (search : BodySearch σ) : Prop :=
  ∀ (memory : Memory σ) env type found, assertions.state memory.state →
    assertions.scope memory.state env → assertions.goal memory.state type →
      (∀ program (after : Memory σ), assertions.state after.state →
        assertions.later memory.state after.state →
          assertions.body after.state program →
            Yields setting promise (found program) after result) →
        Yields setting promise (search env type found) memory result

theorem keepsBodies_searchGuess (depth : Nat) :
    KeepsBodies setting promise assertions result (searchGuess depth) := by
  intro memory env type found state scope goal accepts
  have isType := upholds.types.goal goal
  apply keepsTerms_searchTerm upholds depth _ _ _ _ state scope (upholds.types.top isType)
  intro env program middle state grows scope term
  have later := upholds.lasting.laterOfGrows grows
  have typeMiddle := upholds.lasting.type later isType
  have checked := upholds.check state scope term.type typeMiddle term.body
  apply checked.bind_bind
  intro _ after holds
  have further := upholds.lasting.laterOfGrows holds.2.1
  apply accepts _ after holds.1 (upholds.lasting.laterTrans later further)
  exact upholds.programs.withType (upholds.lasting.body further term.body)
    (upholds.lasting.type further typeMiddle)

/-! ## Matches -/

theorem scope_caseBindings {state : SearchState} {binders : List String}
    (generated : ∀ name ∈ binders, ∃ number : Nat, name = Stem.caseBinder ++ toString number)
    {env : Environment} {signature : RefinedType} (scope : assertions.scope state env)
    (type : assertions.type state signature) :
    assertions.scope state ((caseBindings binders signature).foldl
      (fun env binding => env.addVariable binding.1 binding.2) env) := by
  induction binders generalizing env signature with
  | nil => exact scope
  | cons name rest induction =>
      cases signature with
      | scalar => exact scope
      | function parameter argument result =>
          rcases generated name List.mem_cons_self with ⟨number, rfl⟩
          apply induction fun other member => generated other (List.mem_cons_of_mem _ member)
          · exact upholds.scopes.binder number scope (upholds.types.argument type)
          · exact upholds.types.renamed _ _ _ (upholds.types.result type)

theorem keeps_searchCase {searchBody : BodySearch σ}
    (keeps : KeepsBodies setting promise assertions result searchBody) {memory : Memory σ}
    {outer env : Environment} {name subject constructorName : String}
    {datatype : Datatype} {scrutinee type : RefinedType}
    {found : Case Program → Search σ Program} (state : assertions.state memory.state)
    (outerScope : assertions.scope memory.state outer)
    (listed : (name, datatype) ∈ outer.datatypes.entries)
    (member : constructorName ∈ datatype.constructors)
    (scope : assertions.scope memory.state env)
    (scrutineeType : assertions.type memory.state scrutinee)
    (known : assertions.scrutinee name datatype scrutinee)
    (goal : assertions.goal memory.state type)
    (accepts : ∀ case (after : Memory σ), assertions.state after.state →
      assertions.later memory.state after.state →
        assertions.body after.state case.body →
          Yields setting promise (found case) after result) :
    Yields setting promise
      (searchCase searchBody env subject scrutinee constructorName type found) memory
      result := by
  rw [searchCase_eq]
  apply (upholds.signature state outerScope listed member scope scrutineeType known).bind
  intro signature middle holds
  apply (Yields.freshAll Stem.caseBinder signature.arity).bind
  intro binders last generated
  dsimp only
  have later := holds.2.1
  rw [← generated.1] at holds later
  apply keeps last _ type _ holds.1
  · apply upholds.scopes.fact
    · exact scope_caseBindings upholds generated.2.2 (upholds.lasting.scope later scope)
        holds.2.2
    · exact upholds.lasting.type later scrutineeType
  · exact upholds.lasting.goal later goal
  · intro body after state further holds
    exact accepts _ after state (upholds.lasting.laterTrans later further) holds

theorem keeps_searchCases {searchBody : BodySearch σ}
    (keeps : KeepsBodies setting promise assertions result searchBody) {memory : Memory σ}
    {outer env : Environment} {name subject : String}
    {datatype : Datatype} {scrutinee type : RefinedType} {constructors : List String}
    {done : List (Case Program)} {found : List (Case Program) → Search σ Program}
    (state : assertions.state memory.state)
    (outerScope : assertions.scope memory.state outer)
    (listed : (name, datatype) ∈ outer.datatypes.entries)
    (members : constructors ⊆ datatype.constructors)
    (scope : assertions.scope memory.state env)
    (scrutineeType : assertions.type memory.state scrutinee)
    (known : assertions.scrutinee name datatype scrutinee)
    (goal : assertions.goal memory.state type)
    (bodies : ∀ case ∈ done, assertions.body memory.state case.body)
    (accepts : ∀ cases (after : Memory σ), assertions.state after.state →
      assertions.later memory.state after.state →
        (∀ case ∈ cases, assertions.body after.state case.body) →
          Yields setting promise (found cases) after result) :
    Yields setting promise
      (searchCases searchBody env subject scrutinee type found constructors done) memory
      result := by
  induction constructors generalizing memory done with
  | nil =>
      exact accepts done memory state
        (upholds.lasting.laterOfGrows (upholds.lasting.refl _)) bodies
  | cons constructorName rest induction =>
      apply keeps_searchCase upholds keeps state outerScope listed
        (members List.mem_cons_self) scope scrutineeType known goal
      intro case after stateAfter later body
      apply induction stateAfter (upholds.lasting.scope later outerScope)
        (fun _ member => members (List.mem_cons_of_mem _ member))
        (upholds.lasting.scope later scope) (upholds.lasting.type later scrutineeType)
        (upholds.lasting.goal later goal)
      · intro other member
        rcases List.mem_append.mp member with old | new
        · exact upholds.lasting.body later (bodies other old)
        · rwa [List.mem_singleton.mp new]
      · intro cases last stateLast further holds
        exact accepts cases last stateLast (upholds.lasting.laterTrans later further) holds

omit upholds in
theorem exists_typeVars {shapes : List Shape}
    (atoms : ∀ shape ∈ shapes, ∃ name, shape = .atom (.typeVar name) ()) :
    ∃ names : List String,
      shapes = names.map fun name => .atom (.typeVar name) () := by
  induction shapes with
  | nil => exact ⟨[], rfl⟩
  | cons shape rest induction =>
      rcases List.forall_mem_cons.mp atoms with ⟨⟨name, rfl⟩, others⟩
      rcases induction others with ⟨names, rfl⟩
      exact ⟨name :: names, rfl⟩

theorem yields_nameScrutinee {memory : Memory σ} {env : Environment}
    {scrutinee : Program} (scope : assertions.scope memory.state env)
    (type : assertions.type memory.state scrutinee.type) :
    Yields setting promise (nameScrutinee env scrutinee) memory fun named after =>
      after.state = memory.state ∧ assertions.scope memory.state named.1 := by
  have ghost : Yields setting promise (do
      let name ← fresh Stem.ghost
      return (env.addGhost name scrutinee.type, name)) memory fun named after =>
        after.state = memory.state ∧ assertions.scope memory.state named.1 := by
    apply Yields.naming_bind
    exact fun _ => Yields.pure ⟨rfl, upholds.scopes.ghost _ scope type⟩
  cases scrutinee with
  | symbol name t =>
      unfold nameScrutinee
      dsimp only
      split
      · exact ghost
      · exact Yields.pure ⟨rfl, scope⟩
  | _ => exact ghost

theorem keepsBodies_searchMatchWith {searchBody : BodySearch σ}
    (keeps : KeepsBodies setting promise assertions result searchBody) :
    KeepsBodies setting promise assertions result (searchMatchWith searchBody) := by
  intro memory env type found state scope goal accepts
  apply Yields.choose rfl
  rintro ⟨name, datatype⟩ listed other same
  rw [← same] at state scope goal accepts
  dsimp only
  have drawn : Yields setting promise (datatype.parameters.mapM fun _ => do
      return Skeleton.atom (.typeVar (← fresh Stem.typeVar)) ()) other
      fun shapes after => after.state = other.state ∧
        shapes.length = datatype.parameters.length ∧
          ∀ shape ∈ shapes, ∃ name, shape = .atom (.typeVar name) () := by
    apply Yields.mapM
    intro _ _ middle same
    exact fun calm => ⟨promise.renamed middle _ calm, same, _, rfl⟩
  apply drawn.bind
  intro shapes middle generated
  rcases exists_typeVars generated.2.2 with ⟨typeVars, rfl⟩
  rw [← generated.1] at state scope goal accepts
  apply Yields.read_bind
  apply keepsTerms_searchTerm upholds _ _ _ (.dataOf name typeVars) _ state scope
    (upholds.types.dataTop _ name typeVars)
  intro env' scrutinee last stateLast grows scope' term
  have later := upholds.lasting.laterOfGrows grows
  have goalLast := upholds.lasting.goal later goal
  have outerScope := upholds.lasting.scope later scope
  have knownType := upholds.types.applied stateLast term.type
  have length : typeVars.length = datatype.parameters.length :=
    (List.length_map _).symm.trans generated.2.1
  have known := upholds.types.scrutinee term.fits length
  apply Yields.applyAssignment_bind
  generalize last.state.assignment.apply scrutinee.type = applied at knownType known ⊢
  split
  -- The type of the scrutinee is not known yet.
  · exact Yields.fail rfl
  · apply (yields_nameScrutinee upholds scope' term.type).bind
    rintro ⟨caseEnv, subject⟩ next ⟨same, caseScope⟩
    rw [← same] at stateLast later goalLast outerScope knownType caseScope
    apply keeps_searchCases upholds keeps stateLast outerScope listed
      (List.Subset.refl _) caseScope knownType known goalLast (List.forall_mem_nil _)
    intro cases after stateAfter further bodies
    have subjectBody := upholds.lasting.body further (same ▸ term.body)
    have subjectType := upholds.lasting.type further knownType
    apply accepts _ after stateAfter (upholds.lasting.laterTrans later further)
    exact upholds.programs.caseOf (upholds.programs.withType subjectBody subjectType)
      bodies (upholds.types.goal (upholds.lasting.goal further goalLast))

theorem keepsBodies_searchConditionalWith {searchBody : BodySearch σ}
    (keeps : KeepsBodies setting promise assertions result searchBody) :
    KeepsBodies setting promise assertions result (searchConditionalWith searchBody) := by
  intro memory env type found state scope goal accepts
  apply Yields.naming_bind
  intro names
  dsimp only
  have renamed : assertions.state { memory with names }.state := state
  apply (upholds.guard _ renamed scope).bind
  intro _ middle holds
  have goalMiddle := upholds.lasting.goal holds.2.1 goal
  apply keeps _ _ _ _ holds.1 holds.2.2.1 goalMiddle
  intro thenBranch last stateLast laterLast thenBody
  apply keeps _ _ _ _ stateLast (upholds.lasting.scope laterLast holds.2.2.2)
    (upholds.lasting.goal laterLast goalMiddle)
  intro elseBranch after stateAfter laterAfter elseBody
  have further := upholds.lasting.laterTrans laterLast laterAfter
  have all := upholds.lasting.laterTrans holds.2.1 further
  apply accepts _ after stateAfter all
  exact upholds.programs.conditional (upholds.lasting.scope further holds.2.2.1)
    (upholds.lasting.body laterAfter thenBody) elseBody
    (upholds.types.goal (upholds.lasting.goal all goal))

theorem keepsBodies_searchFunctionWith {searchScalar : BodySearch σ}
    (keeps : KeepsBodies setting promise assertions result searchScalar) :
    KeepsBodies setting promise assertions result (searchFunctionWith searchScalar) := by
  intro memory env type
  induction type using Skeleton.arity.induct generalizing env with
  | case1 base arguments refinement => exact keeps memory env _
  | case2 name argument result induction =>
      intro found state scope goal accepts
      apply induction _ _ state (upholds.scopes.argument scope goal)
        (upholds.scopes.result goal)
      intro body after stateAfter later holds
      apply accepts _ after stateAfter later
      exact upholds.programs.lambda name holds
        (upholds.types.goal (upholds.lasting.goal later goal))

omit upholds in
theorem keepsBodies_exhausted (budget : Budget) :
    KeepsBodies setting promise assertions result (exhausted budget) :=
  fun _ _ _ _ _ _ _ _ => Yields.fail rfl

theorem keepsBodies_searchBodyWith (guessDepth : Nat)
    {searchMatch searchConditional : BodySearch σ}
    (matches_ : KeepsBodies setting promise assertions result searchMatch)
    (conditionals : KeepsBodies setting promise assertions result searchConditional) :
    KeepsBodies setting promise assertions result
      (searchBodyWith guessDepth searchMatch searchConditional) := by
  apply keepsBodies_searchFunctionWith upholds
  intro memory env type found state scope goal accepts
  apply Yields.choose rfl
  intro search listed other same
  rw [← same] at state scope goal accepts
  have keeps : KeepsBodies setting promise assertions result search := by
    rcases List.mem_cons.mp listed with rfl | listed
    · exact keepsBodies_searchGuess upholds guessDepth
    · rcases List.mem_cons.mp listed with rfl | listed
      · exact matches_
      · exact List.mem_singleton.mp listed ▸ conditionals
  exact keeps other env type found state scope goal accepts

theorem keepsBodies_searchMatching (guessDepth : Nat)
    {fewer : Option (Nat → BodySearch σ)}
    (keeps : ∀ search, fewer = some search → ∀ matching,
      KeepsBodies setting promise assertions result (search matching)) (matching : Nat) :
    KeepsBodies setting promise assertions result
      (searchMatching guessDepth fewer matching) := by
  have conditionals (matching : Nat) : KeepsBodies setting promise assertions result
      (searchMatching.withConditional fewer matching) := by
    cases fewer with
    | none => exact keepsBodies_exhausted .conditional
    | some search =>
        exact keepsBodies_searchConditionalWith upholds (keeps search rfl matching)
  induction matching with
  | zero =>
      exact keepsBodies_searchBodyWith upholds guessDepth (keepsBodies_exhausted .matching)
        (conditionals 0)
  | succ matching induction =>
      exact keepsBodies_searchBodyWith upholds guessDepth
        (keepsBodies_searchMatchWith upholds induction) (conditionals (matching + 1))

theorem keepsBodies_searchBranching (guessDepth conditional matching : Nat) :
    KeepsBodies setting promise assertions result
      (searchBranching guessDepth conditional matching) := by
  induction conditional generalizing matching with
  | zero => exact keepsBodies_searchMatching upholds guessDepth (by rintro _ ⟨⟩) matching
  | succ conditional induction =>
      apply keepsBodies_searchMatching upholds guessDepth _ matching
      rintro search ⟨⟩ matching
      exact induction matching

theorem keepsBodies_searchBody (depth : Depth) :
    KeepsBodies setting promise assertions result (searchBody depth) :=
  keepsBodies_searchBranching upholds _ _ _

theorem keeps_searchGoal (depth : Depth) {memory : Memory σ} {env : Environment}
    {schema : Schema} {found : Sink σ} (state : assertions.state memory.state)
    (scope : assertions.scope memory.state env)
    (goal : assertions.goal memory.state schema.body)
    (accepts : ∀ program (after : Memory σ), assertions.state after.state →
      assertions.later memory.state after.state → assertions.body after.state program →
        Yields setting promise (found program) after result) :
    Yields setting promise (searchGoal depth env schema found) memory result := by
  induction schema generalizing env with
  | forAll name body induction =>
      exact induction (upholds.scopes.typeVar name scope) goal
  | mono type =>
      unfold searchGoal
      split
      · apply Yields.read_bind
        apply Yields.naming_bind
        intro names
        dsimp only
        apply keepsBodies_searchBody upholds depth { memory with names } _ type _ state
          (upholds.scopes.recursion _ _ scope goal) goal
        intro body after stateAfter later holds
        apply accepts _ after stateAfter later
        split
        · exact holds
        · exact upholds.programs.fix _ holds
      · exact keepsBodies_searchBody upholds depth memory env type found state scope goal
          accepts

end Upheld

end Search

end Inhabit
