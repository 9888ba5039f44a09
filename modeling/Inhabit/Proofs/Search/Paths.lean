import Inhabit.Proofs.Search.Traces

/-! The ways in which a search comes to what it finds.

A path goes from the memory that a search was started in to the one in which it hands
on a term or a program, past the options that it has given up. What the search does
with what it has found is no part of the path, so that paths can be reasoned about one
after the other. -/

namespace Inhabit

/-- The state as it was, later: other branches may have drawn names and asked the
solver since. -/
structure Memory.Resumed (before after : Memory σ) : Prop where
  state : after.state = before.state
  advances : before.names.issued ≤ after.names.issued

namespace Memory.Resumed

theorem refl (memory : Memory σ) : memory.Resumed memory := ⟨rfl, Nat.le_refl _⟩

theorem trans {first second third : Memory σ} (early : first.Resumed second)
    (late : second.Resumed third) : first.Resumed third :=
  ⟨late.state.trans early.state, Nat.le_trans early.advances late.advances⟩

end Memory.Resumed

namespace Search

variable {σ : Type}

/-! ## Terms -/

/-- The types were compared, and what followed was solved if the search solves as it
goes. -/
def Checks (setting : Setting σ) (env : Environment) (left right : RefinedType)
    (program : Program) (before after : Memory σ) : Prop :=
  solveIncrementally program setting
    { before with state := before.state.addPending [.subtype env left right] } =
      (.ok (), after)

/-- An application, and the scope it is handed on in: a scalar argument is named by a
ghost. -/
inductive Applies (env : Environment) (function argument : Program) (formal : String)
    (expected result : RefinedType) (memory : Memory σ) :
    Environment → Program → Memory σ → Prop where
  | functional (isFunction : expected.isFunction = true) :
      Applies env function argument formal expected result memory env
        (.app function argument result) memory
  | scalar (isScalar : expected.isFunction = false) {ghost : String}
      (named : ghost = Stem.ghost ++ toString memory.names.issued) :
      Applies env function argument formal expected result memory
        (env.addGhost ghost argument.type)
        (.app function argument (RefinedType.renameVar result formal ghost expected))
        { memory with names := ⟨memory.names.issued + 1⟩ }

inductive TermPath (setting : Setting σ) : (depth : Nat) → Environment → Shape →
    Memory σ → Environment → Program → Memory σ → Prop where
  | symbol {depth : Nat} {env : Environment} {shape : Shape} {memory start after : Memory σ}
      {name : String} {schema : Schema} {type : RefinedType} {names : NameSupply}
      (resumed : memory.Resumed start)
      (listed : (name, schema) ∈ (env.symbolsOfArity shape.arity).entries)
      (instantiated : schema.instantiate.run start.names = (type, names))
      (checked : Checks setting env (symbolType env name type).shape.refineBottom
        shape.refineTop (.symbol name (symbolType env name type)) { start with names } after) :
      TermPath setting depth env shape memory env (.symbol name (symbolType env name type))
        after
  | application {depth : Nat} {env functionEnv argumentEnv finalEnv : Environment}
      {shape functionShape : Shape} {memory start middle last solved after : Memory σ}
      {function argument program : Program} {formal : String}
      {expected result : RefinedType} (resumed : memory.Resumed start)
      (sought : functionShape =
        .function (Stem.argument ++ toString (start.names.issued + 1))
          (.atom (.typeVar (Stem.typeVar ++ toString start.names.issued)) ()) shape)
      (first : TermPath setting depth env functionShape
        { start with names := ⟨start.names.issued + 2⟩ } functionEnv function middle)
      (applied : function.type = .function formal expected result)
      (second : TermPath setting depth functionEnv
        (middle.state.assignment.apply expected).shape middle argumentEnv argument last)
      (checked : Checks setting argumentEnv argument.type expected argument last solved)
      (applies : Applies argumentEnv function argument formal expected result solved finalEnv
        program after) :
      TermPath setting (depth + 1) env shape memory finalEnv program after

theorem TermPath.of_resumed {setting : Setting σ} {depth : Nat} {env finalEnv : Environment}
    {shape : Shape} {memory start after : Memory σ} {program : Program}
    (path : TermPath setting depth env shape start finalEnv program after)
    (resumed : memory.Resumed start) :
    TermPath setting depth env shape memory finalEnv program after := by
  cases path with
  | symbol again listed instantiated checked =>
      exact .symbol (resumed.trans again) listed instantiated checked
  | application again sought first applied second checked applies =>
      exact .application (resumed.trans again) sought first applied second checked applies

/-! ## Bodies -/

mutual

inductive BodyPath (setting : Setting σ) (guessDepth : Nat) :
    (conditional matching : Nat) → Environment → RefinedType → Memory σ → Program →
      Memory σ → Prop where
  | guess {conditional matching : Nat} {env termEnv : Environment} {type : RefinedType}
      {memory start middle after : Memory σ} {program : Program}
      (resumed : memory.Resumed start) (isScalar : type.isScalar = true)
      (term : TermPath setting guessDepth env type.shape start termEnv program middle)
      (checked : Checks setting termEnv program.type type program middle after) :
      BodyPath setting guessDepth conditional matching env type memory
        (program.withType type) after
  | lambda {conditional matching : Nat} {env : Environment} {name : String}
      {argument result : RefinedType} {memory after : Memory σ} {body : Program}
      (inner : BodyPath setting guessDepth conditional matching
        (env.addVariable name argument) result memory body after) :
      BodyPath setting guessDepth conditional matching env (.function name argument result)
        memory (.lambda name body (.function name argument result)) after
  | conditional {conditional matching : Nat} {env : Environment} {type : RefinedType}
      {memory start middle after : Memory σ} {guard : Formula}
      {thenBranch elseBranch : Program} (resumed : memory.Resumed start)
      (isScalar : type.isScalar = true)
      (unknown : guard = .unknown [] (Stem.guard ++ toString start.names.issued))
      (first : BodyPath setting guessDepth conditional matching (env.assume guard) type
        { start with
          names := ⟨start.names.issued + 1⟩
          state := start.state.addPending [.wellFormedGuard env guard] } thenBranch middle)
      (second : BodyPath setting guessDepth conditional matching (env.refute guard) type
        middle elseBranch after) :
      BodyPath setting guessDepth (conditional + 1) matching env type memory
        (.ite guard thenBranch elseBranch type) after
  | caseOf {conditional matching : Nat} {env termEnv caseEnv : Environment}
      {type known : RefinedType} {memory start drawn middle named after : Memory σ}
      {name subject : String} {datatype : Datatype} {typeVars : List Shape}
      {scrutinee : Program} {cases : List (Case Program)}
      (resumed : memory.Resumed start) (isScalar : type.isScalar = true)
      (listed : (name, datatype) ∈ env.datatypes.entries)
      (draws : (datatype.parameters.mapM fun _ => do
        return Skeleton.atom (.typeVar (← fresh Stem.typeVar)) () : Search σ (List Shape))
          setting start = (.ok typeVars, drawn))
      (term : TermPath setting setting.parameters.scrutineeDepth env
        (.scalar (.data name) typeVars ()) drawn termEnv scrutinee middle)
      (resolved : known = middle.state.assignment.apply scrutinee.type)
      (bound : ∀ typeVar ∈ known.typeVars.toList, termEnv.isBound typeVar = true)
      (names : nameScrutinee termEnv scrutinee setting middle =
        (.ok (caseEnv, subject), named))
      (each : CasesPath setting guessDepth conditional matching caseEnv subject known type
        datatype.constructors named cases after) :
      BodyPath setting guessDepth conditional (matching + 1) env type memory
        (.caseOf (scrutinee.withType known) cases type) after

inductive CasesPath (setting : Setting σ) (guessDepth : Nat) :
    (conditional matching : Nat) → Environment → (subject : String) →
      (scrutinee type : RefinedType) → (constructors : List String) → Memory σ →
        List (Case Program) → Memory σ → Prop where
  | nil {conditional matching : Nat} {env : Environment} {subject : String}
      {scrutinee type : RefinedType} {memory : Memory σ} :
      CasesPath setting guessDepth conditional matching env subject scrutinee type [] memory
        [] memory
  | cons {conditional matching : Nat} {env : Environment} {subject constructorName : String}
      {scrutinee type signature : RefinedType} {constructors binders : List String}
      {memory signed drawn middle after : Memory σ} {body : Program}
      {cases : List (Case Program)}
      (signs : caseSignature env constructorName scrutinee setting memory =
        (.ok signature, signed))
      (binds : (List.replicate signature.arity Stem.caseBinder).mapM fresh setting signed =
        (.ok binders, drawn))
      (first : BodyPath setting guessDepth conditional matching
        (((caseBindings binders signature).foldl
          (fun env binding => env.addVariable binding.1 binding.2) env).assume
            (Environment.factAbout subject scrutinee)) type drawn body middle)
      (rest : CasesPath setting guessDepth conditional matching env subject scrutinee type
        constructors middle cases after) :
      CasesPath setting guessDepth conditional matching env subject scrutinee type
        (constructorName :: constructors) memory
        ({ constructorName, binders, body } :: cases) after

end

/-! ## Goals -/

inductive GoalPath (setting : Setting σ) (depth : Depth) :
    Environment → Schema → Memory σ → Program → Memory σ → Prop where
  | forAll {env : Environment} {name : String} {schema : Schema} {memory after : Memory σ}
      {program : Program}
      (inner : GoalPath setting depth (env.addTypeVar name) schema memory program after) :
      GoalPath setting depth env (.forAll name schema) memory program after
  | scalar {env : Environment} {type : RefinedType} {memory after : Memory σ}
      {program : Program} (isScalar : type.isFunction = false)
      (inner : BodyPath setting depth.application depth.conditional depth.matching env type
        memory program after) :
      GoalPath setting depth env (.mono type) memory program after
  | function {env scope : Environment} {type : RefinedType} {memory after : Memory σ}
      {names : NameSupply} {calls : List String} {body : Program}
      (isFunction : type.isFunction = true)
      (recursion : (recursiveScope env setting.parameters type).run memory.names =
        ((scope, calls), names))
      (inner : BodyPath setting depth.application depth.conditional depth.matching scope
        type { memory with names } body after) :
      GoalPath setting depth env (.mono type) memory
        (if calls.isEmpty then body else .fix calls body body.type) after

/-! ## Every search follows paths -/

/-- What is judged of a search from a memory follows from what is judged of it further
on, wherever it goes on. -/
structure Closed (setting : Setting σ) (judged : Search σ Program → Memory σ → Prop) :
    Prop where
  straight {α : Type} {run : Search σ α} {rest : α → Search σ Program} {memory : Memory σ}
    (straight : Straight setting run)
    (further : ∀ value after, run setting memory = (.ok value, after) →
      judged (rest value) after) : judged (run >>= rest) memory
  choose {α : Type} {options : List α} {none : Failure} {attempt : α → Search σ Program}
    {memory : Memory σ}
    (each : ∀ option ∈ options, ∀ start, memory.Resumed start →
      judged (attempt option) start) : judged (Search.choose options none attempt) memory
  fail (failure : Failure) (memory : Memory σ) : judged (Search.fail failure) memory

def LeadsToTerms (judged : Search σ Program → Memory σ → Prop)
    (search : Environment → Shape → TermSink σ → Search σ Program)
    (path : Environment → Shape → Memory σ → Environment → Program → Memory σ → Prop) : Prop :=
  ∀ memory env shape found,
    (∀ env' program after, path env shape memory env' program after →
      judged (found env' program) after) → judged (search env shape found) memory

def LeadsTo (judged : Search σ Program → Memory σ → Prop) (search : BodySearch σ)
    (path : Environment → RefinedType → Memory σ → Program → Memory σ → Prop) : Prop :=
  ∀ memory env type found,
    (∀ program after, path env type memory program after → judged (found program) after) →
      judged (search env type found) memory

/-- As an option of a choice that was met earlier, for a scalar. -/
def LeadsToScalars (judged : Search σ Program → Memory σ → Prop) (search : BodySearch σ)
    (path : Environment → RefinedType → Memory σ → Program → Memory σ → Prop) : Prop :=
  ∀ memory start env type found, type.isScalar = true → memory.Resumed start →
    (∀ program after, path env type memory program after → judged (found program) after) →
      judged (search env type found) start

namespace Closed

variable {setting : Setting σ} {judged : Search σ Program → Memory σ → Prop}
  (closed : Closed setting judged) {memory : Memory σ}

include closed

theorem fresh {stem : String} {rest : String → Search σ Program}
    (further : judged (rest (stem ++ toString memory.names.issued))
      { memory with names := ⟨memory.names.issued + 1⟩ }) :
    judged (Search.fresh stem >>= rest) memory := by
  apply closed.straight (Straight.fresh stem)
  rintro _ _ ⟨⟩
  exact further

theorem checks {env : Environment} {left right : RefinedType} {program : Program}
    {rest : Search σ Program}
    (further : ∀ after, Checks setting env left right program memory after →
      judged rest after) :
    judged (do
      constrain (.subtype env left right)
      solveIncrementally program
      rest) memory := by
  apply closed.straight (Straight.constrain _)
  rintro _ _ ⟨⟩
  apply closed.straight (Straight.solveIncrementally program)
  exact fun _ after ran => further after ran

theorem searchSymbol (depth : Nat) :
    LeadsToTerms judged Search.searchSymbol (TermPath setting depth) := by
  intro memory env shape found accepts
  apply closed.choose
  rintro ⟨name, schema⟩ listed start resumed
  apply closed.straight (Straight.naming (.instantiate schema))
  rintro type drawn ⟨⟩
  apply closed.checks
  intro after checked
  exact accepts env _ after (.symbol resumed listed rfl checked)

theorem searchApplicationWith {depth : Nat}
    {searchPart : Environment → Shape → TermSink σ → Search σ Program}
    (parts : LeadsToTerms judged searchPart (TermPath setting depth)) :
    LeadsToTerms judged (Search.searchApplicationWith searchPart)
      (TermPath setting (depth + 1)) := by
  intro memory env shape found accepts
  unfold Search.searchApplicationWith
  split
  · exact closed.fail _ _
  · apply closed.fresh
    apply closed.fresh
    apply parts
    intro functionEnv function middle first
    dsimp only
    cases applied : function.type with
    | scalar => exact closed.fail _ _
    | function formal expected result =>
        apply closed.straight (Straight.applyAssignment expected)
        rintro _ _ ⟨⟩
        apply parts
        intro argumentEnv argument last second
        apply closed.checks
        intro solved checked
        cases functional : expected.isFunction with
        | true =>
            exact accepts _ _ _ (.application (.refl memory) rfl first applied second checked
              (.functional functional))
        | false =>
            apply closed.fresh
            exact accepts _ _ _ (.application (.refl memory) rfl first applied second checked
              (.scalar functional rfl))

theorem searchTerm (depth : Nat) :
    LeadsToTerms judged (Search.searchTerm depth) (TermPath setting depth) := by
  have symbols (depth : Nat) := closed.searchSymbol depth
  induction depth with
  | zero =>
      intro memory env shape found accepts
      apply closed.choose
      intro search listed start resumed
      rcases List.mem_cons.mp listed with rfl | listed
      · exact symbols 0 start env shape found fun env' program after path =>
          accepts env' program after (path.of_resumed resumed)
      · rw [List.mem_singleton.mp listed]
        exact closed.fail _ _
  | succ depth induction =>
      intro memory env shape found accepts
      apply closed.choose
      intro search listed start resumed
      have acceptsStart : ∀ env' program after,
          TermPath setting (depth + 1) env shape start env' program after →
            judged (found env' program) after :=
        fun env' program after path => accepts env' program after (path.of_resumed resumed)
      rcases List.mem_cons.mp listed with rfl | listed
      · exact symbols (depth + 1) start env shape found acceptsStart
      · rw [List.mem_singleton.mp listed]
        exact closed.searchApplicationWith induction start env shape found acceptsStart

/-! ### Bodies -/

section Bodies

variable {guessDepth conditional matching : Nat}

theorem searchCases {searchBody : BodySearch σ}
    (bodies : LeadsTo judged searchBody (BodyPath setting guessDepth conditional matching))
    {env : Environment} {subject : String} {scrutinee type : RefinedType}
    {constructors : List String} {done : List (Case Program)}
    {found : List (Case Program) → Search σ Program}
    (accepts : ∀ cases after, CasesPath setting guessDepth conditional matching env subject
      scrutinee type constructors memory cases after → judged (found (done ++ cases)) after) :
    judged (Search.searchCases searchBody env subject scrutinee type found constructors done)
      memory := by
  induction constructors generalizing memory done with
  | nil => exact List.append_nil done ▸ accepts [] memory .nil
  | cons constructorName constructors induction =>
      rw [Search.searchCases, searchCase_eq]
      apply closed.straight (Straight.caseSignature env constructorName scrutinee)
      intro signature signed signs
      apply closed.straight (Straight.mapM (fun stem => Straight.fresh stem) _)
      intro binders drawn binds
      apply bodies
      intro body middle first
      apply induction
      intro cases after rest
      rw [List.append_assoc]
      exact accepts _ after (.cons signs binds first rest)

theorem searchMatchWith {searchBody : BodySearch σ}
    (bodies : LeadsTo judged searchBody (BodyPath setting guessDepth conditional matching)) :
    LeadsToScalars judged (Search.searchMatchWith searchBody)
      (BodyPath setting guessDepth conditional (matching + 1)) := by
  intro memory start env type found isScalar resumed accepts
  apply closed.choose
  rintro ⟨name, datatype⟩ listed begin again
  apply closed.straight (Straight.mapM (fun _ => (Straight.fresh _).bind fun _ => .pure _) _)
  intro typeVars drawn draws
  apply closed.straight (.step .read)
  rintro _ _ ⟨⟩
  apply closed.searchTerm
  intro termEnv scrutinee middle term
  apply closed.straight (Straight.applyAssignment _)
  rintro _ _ ⟨⟩
  dsimp only
  split
  · exact closed.fail _ _
  · rename_i none
    apply closed.straight (Straight.nameScrutinee termEnv scrutinee)
    rintro ⟨caseEnv, subject⟩ named names
    apply closed.searchCases bodies
    intro cases after each
    apply accepts _ after
    refine .caseOf (resumed.trans again) isScalar listed draws term rfl ?_ names each
    intro typeVar member
    by_contra unbound
    exact none (List.any_eq_true.mpr ⟨typeVar, member, by simp [unbound]⟩)

theorem searchConditionalWith {searchBody : BodySearch σ}
    (bodies : LeadsTo judged searchBody (BodyPath setting guessDepth conditional matching)) :
    LeadsToScalars judged (Search.searchConditionalWith searchBody)
      (BodyPath setting guessDepth (conditional + 1) matching) := by
  intro memory start env type found isScalar resumed accepts
  apply closed.fresh
  apply closed.straight (Straight.constrain _)
  rintro _ _ ⟨⟩
  apply bodies
  intro thenBranch middle first
  apply bodies
  intro elseBranch after second
  exact accepts _ after (.conditional resumed isScalar rfl first second)

theorem searchGuess :
    LeadsToScalars judged (Search.searchGuess guessDepth)
      (BodyPath setting guessDepth conditional matching) := by
  intro memory start env type found isScalar resumed accepts
  apply closed.searchTerm
  intro termEnv program middle term
  apply closed.checks
  intro after checked
  exact accepts _ after (.guess resumed isScalar term checked)

theorem exhausted (budget : Budget) :
    LeadsToScalars judged (Search.exhausted budget)
      (BodyPath setting guessDepth conditional matching) :=
  fun _ start _ _ _ _ _ _ => closed.fail _ start

omit closed in
theorem searchFunctionWith {searchScalar : BodySearch σ}
    (scalars : LeadsToScalars judged searchScalar
      (BodyPath setting guessDepth conditional matching)) :
    LeadsTo judged (Search.searchFunctionWith searchScalar)
      (BodyPath setting guessDepth conditional matching) := by
  intro memory env type
  induction type using Skeleton.arity.induct generalizing env with
  | case1 base arguments refinement =>
      exact fun found => scalars memory memory env _ found rfl (.refl memory)
  | case2 name argument result induction =>
      intro found accepts
      apply induction
      exact fun body after inner => accepts _ after (.lambda inner)

theorem searchBodyWith {searchMatch searchConditional : BodySearch σ}
    (matchings : LeadsToScalars judged searchMatch
      (BodyPath setting guessDepth conditional matching))
    (conditionals : LeadsToScalars judged searchConditional
      (BodyPath setting guessDepth conditional matching)) :
    LeadsTo judged (Search.searchBodyWith guessDepth searchMatch searchConditional)
      (BodyPath setting guessDepth conditional matching) := by
  apply searchFunctionWith
  intro memory start env type found isScalar resumed accepts
  apply closed.choose
  intro search listed begin again
  suffices leads : LeadsToScalars judged search
      (BodyPath setting guessDepth conditional matching) from
    leads memory begin env type found isScalar (resumed.trans again) accepts
  rcases List.mem_cons.mp listed with rfl | listed
  · exact closed.searchGuess
  · rcases List.mem_cons.mp listed with rfl | listed
    · exact matchings
    · exact List.mem_singleton.mp listed ▸ conditionals

theorem searchMatching {fewer : Option (Nat → BodySearch σ)}
    (conditionals : ∀ matching, LeadsToScalars judged
      (searchMatching.withConditional fewer matching)
      (BodyPath setting guessDepth conditional matching)) (matching : Nat) :
    LeadsTo judged (Search.searchMatching guessDepth fewer matching)
      (BodyPath setting guessDepth conditional matching) := by
  induction matching with
  | zero => exact closed.searchBodyWith (closed.exhausted .matching) (conditionals 0)
  | succ matching induction =>
      exact closed.searchBodyWith (closed.searchMatchWith induction)
        (conditionals (matching + 1))

theorem searchBranching (conditional matching : Nat) :
    LeadsTo judged (Search.searchBranching guessDepth conditional matching)
      (BodyPath setting guessDepth conditional matching) := by
  induction conditional generalizing matching with
  | zero =>
      have conditionals (matching : Nat) : LeadsToScalars judged
          (searchMatching.withConditional none matching)
          (BodyPath setting guessDepth 0 matching) :=
        closed.exhausted .conditional
      exact closed.searchMatching conditionals matching
  | succ conditional induction =>
      have conditionals (matching : Nat) : LeadsToScalars judged
          (searchMatching.withConditional
            (some (Search.searchBranching guessDepth conditional)) matching)
          (BodyPath setting guessDepth (conditional + 1) matching) :=
        closed.searchConditionalWith (induction matching)
      exact closed.searchMatching conditionals matching

end Bodies

theorem searchBody (depth : Depth) :
    LeadsTo judged (Search.searchBody depth)
      (BodyPath setting depth.application depth.conditional depth.matching) :=
  closed.searchBranching depth.conditional depth.matching

theorem searchGoal (depth : Depth) {env : Environment} {schema : Schema} {found : Sink σ}
    (accepts : ∀ program after, GoalPath setting depth env schema memory program after →
      judged (found program) after) :
    judged (Search.searchGoal depth env schema found) memory := by
  induction schema generalizing env with
  | forAll name body induction =>
      exact induction fun program after inner => accepts program after (.forAll inner)
  | mono type =>
      unfold Search.searchGoal
      split
      · rename_i isFunction
        apply closed.straight (.step .read)
        rintro _ _ ⟨⟩
        apply closed.straight (Straight.naming (.recursiveScope env _ type))
        rintro ⟨scope, calls⟩ drawn ⟨⟩
        apply closed.searchBody depth
        exact fun body after inner => accepts _ after (.function isFunction rfl inner)
      · rename_i isScalar
        apply closed.searchBody depth
        exact fun program after inner =>
          accepts program after (.scalar (Bool.eq_false_iff.mpr isScalar) inner)

end Closed

/-! ## Traces of whole searches -/

variable {setting : Setting σ}

/-- The run has a trace, and if something is found then the last events of its branch
tell how. -/
def Traced (setting : Setting σ) (final : Program → Memory σ → List Event → Prop)
    (run : Search σ Program) (memory : Memory σ) : Prop :=
  ∃ branch events ended, Trace setting run memory branch events ended ∧
    ∀ program after, ended = (.ok program, after) →
      ∃ earlier later, branch = earlier ++ later ∧ final program after later

section Traced

variable {final : Program → Memory σ → List Event → Prop} {memory : Memory σ}

theorem traced_bind {α : Type} {run : Search σ α} {rest : α → Search σ Program}
    (straight : Straight setting run)
    (further : ∀ value after, run setting memory = (.ok value, after) →
      Traced setting final (rest value) after) :
    Traced setting final (run >>= rest) memory := by
  rcases straight.exists_trace memory with ⟨branch, events, first⟩
  cases ran : run setting memory with
  | mk outcome middle =>
      rw [ran] at first
      cases outcome with
      | error interrupt => exact ⟨branch, events, _, .stop first, nofun⟩
      | ok value =>
          rcases further value middle ran with
            ⟨laterBranch, laterEvents, ended, second, ends⟩
          refine ⟨_, _, ended, .next first second, fun program after found => ?_⟩
          rcases ends program after found with ⟨earlier, later, rfl, holds⟩
          exact ⟨branch ++ earlier, later, (List.append_assoc _ _ _).symm, holds⟩

theorem traced_choose {α : Type} {options : List α} {none : Failure}
    {attempt : α → Search σ Program}
    (each : ∀ option ∈ options, ∀ start, memory.Resumed start →
      Traced setting final (attempt option) start) :
    Traced setting final (Search.choose options none attempt) memory := by
  induction options generalizing none memory with
  | nil => exact ⟨_, _, _, .exhausted, nofun⟩
  | cons option rest induction =>
      rcases each option List.mem_cons_self memory (.refl memory) with
        ⟨branch, events, ended, trace, ends⟩
      have taken (last : ∀ interrupt, ended.1 = .error interrupt → interrupt.stops = true) :
          Traced setting final (Search.choose (option :: rest) none attempt) memory := by
        refine ⟨_, _, ended, .taken trace last, fun program after found => ?_⟩
        rcases ends program after found with ⟨earlier, later, rfl, holds⟩
        exact ⟨.attempted :: earlier, later, rfl, holds⟩
      rcases ended with ⟨outcome, middle⟩
      match outcome with
      | .ok _ => exact taken nofun
      | .error (.trapped _) => exact taken (by rintro _ ⟨⟩; rfl)
      | .error .unfinished => exact taken (by rintro _ ⟨⟩; rfl)
      | .error (.failed failure) =>
          cases fatal : failure.isFatal with
          | true => exact taken (by rintro _ ⟨⟩; exact fatal)
          | false =>
              let again : Memory σ := { middle with state := memory.state }
              have others : Traced setting final (Search.choose rest failure attempt) again := by
                apply induction
                intro other member start resumed
                exact each other (List.mem_cons_of_mem _ member) start
                  ⟨resumed.state, trace.advances.trans resumed.advances⟩
              rcases others with ⟨_, _, ended, others, ends⟩
              exact ⟨_, _, ended, .passed trace fatal others, ends⟩

theorem closed_traced : Closed setting (Traced setting final) where
  straight := traced_bind
  choose := traced_choose
  fail failure memory := ⟨_, _, _, .step (.fail failure) memory, nofun⟩

end Traced

end Search

open Search in
/-- The run of a search for a goal has a trace. What it finds was found on a path and
solved for at its end, and that is the last event of its branch. -/
theorem Goal.traced_search (setting : Setting σ) (goal : Goal) (memory : Memory σ) :
    Traced setting (fun program after later => ∃ found before clauses candidates,
      GoalPath setting setting.parameters.depth goal.environment goal.schema memory found
          before ∧
        solve found setting before = (.ok (), after) ∧ program = after.state.finalize found ∧
        later = [.refined clauses after.state.qualifiers found candidates
          (.ok after.state.candidates)]) goal.search memory := by
  apply traced_bind (.step .read)
  rintro _ _ ⟨⟩
  apply closed_traced.searchGoal
  intro found before path
  cases ran : solve found setting before with
  | mk outcome after =>
      cases outcome with
      | error interrupt =>
          rcases (Straight.solve found).exists_trace before with ⟨_, _, trace⟩
          rw [ran] at trace
          exact ⟨_, _, _, .stop trace, nofun⟩
      | ok _ =>
          rcases exists_trace_solve ran with ⟨earlier, _, clauses, candidates, solves⟩
          let finish : Search σ Program := do return (← get).state.finalize found
          have finishes : Trace setting finish after [] []
              (.ok (after.state.finalize found), after) :=
            .next (.step .get after) (.step (.pure _) after)
          refine ⟨_, _, _, .next solves finishes, ?_⟩
          rintro _ _ ⟨⟩
          exact ⟨earlier, _, List.append_nil _, found, before, clauses, candidates, path, ran,
            rfl, rfl⟩

end Inhabit
