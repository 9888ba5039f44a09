import Inhabit.Search.Terms

/-! Search for introduction terms, top-down along the type: functions, guessed
elimination terms, pattern matches and conditionals. -/

namespace Inhabit.Search

abbrev Sink (σ : Type) := Program → Search σ Program

abbrev BodySearch (σ : Type) := Environment → RefinedType → Sink σ → Search σ Program

/-! ## Guesses -/

def searchGuess (depth : Nat) : BodySearch σ := fun env type found =>
  searchTerm depth env type.shape fun env program => do
    constrain (.subtype env program.type type)
    solveIncrementally program
    found (program.withType type)

/-! ## Matches -/

/-- Bind the arguments of a constructor to names. Later arguments may depend on
earlier ones, and are told their names. -/
def caseBindings : (binders : List String) → RefinedType →
    List (String × RefinedType)
  | name :: rest, .function parameter argument result =>
      (name, argument) ::
        caseBindings rest (RefinedType.renameVar result parameter name argument)
  | _, _ => []

def bindArguments (constructorName : String) (result : RefinedType) :
    (parameters arguments : List RefinedType) → Search σ Unit
  | .scalar (.typeVar name) [] _ :: parameters, argument :: arguments => do
      modifyState fun state =>
        { state with assignment := state.assignment.insert name argument }
      bindArguments constructorName result parameters arguments
  | _ :: _, _ :: _ => fail ⟨.missingConstructor constructorName, some (.note
      ("`" ++ RefinedType.render result ++ "` is not generic in its datatype"))⟩
  | _, _ => return

def matchConstructor (constructorName : String) (result scrutinee : RefinedType) :
    Search σ Unit :=
  let mismatch := fail ⟨.missingConstructor constructorName, some (.note
    ("`" ++ RefinedType.render result ++ "` does not construct `" ++ RefinedType.render scrutinee ++ "`"))⟩
  match result, scrutinee with
  | .scalar (.data datatype) parameters _, .scalar (.data other) arguments _ =>
      if datatype = other ∧ parameters.length = arguments.length then
        bindArguments constructorName result parameters arguments
      else mismatch
  | _, _ => mismatch

/-- Search for the case of one constructor. The scrutinee, which is known as
`subject`, contributes the refinement of its own type and nothing else, so that
cases that cannot arise have to be filled all the same. -/
def searchCase (searchBody : BodySearch σ) (env : Environment) (subject : String)
    (scrutinee : RefinedType) (constructorName : String) (type : RefinedType)
    (found : Case Program → Search σ Program) : Search σ Program := do
  match env.lookup? constructorName with
  | none => fail ⟨.missingConstructor constructorName, some (.scope env)⟩
  | some schema =>
      let signature ← naming schema.instantiate
      matchConstructor constructorName signature.lastType scrutinee
      let signature ← applyAssignment signature
      let binders ← (List.replicate signature.arity Stem.caseBinder).mapM fresh
      let caseEnv := (caseBindings binders signature).foldl
        (fun env binding => env.addVariable binding.1 binding.2) env
      searchBody (caseEnv.assume (Environment.factAbout subject scrutinee)) type
        fun body => found { constructorName, binders, body }

def searchCases (searchBody : BodySearch σ) (env : Environment) (subject : String)
    (scrutinee : RefinedType) (type : RefinedType)
    (found : List (Case Program) → Search σ Program) :
    (constructors : List String) → (done : List (Case Program)) → Search σ Program
  | [], done => found done
  | constructorName :: rest, done =>
      searchCase searchBody env subject scrutinee constructorName type fun case =>
        searchCases searchBody env subject scrutinee type found rest (done ++ [case])

/-- A name for the value of a scrutinee. A symbol that is not a constant has one;
anything else becomes a ghost. -/
def nameScrutinee (env : Environment) (scrutinee : Program) :
    Search σ (Environment × String) := do
  let ghost : Search σ (Environment × String) := do
    let name ← fresh Stem.ghost
    return (env.addGhost name scrutinee.type, name)
  match scrutinee with
  | .symbol name _ => if env.isConstant name then ghost else return (env, name)
  | _ => ghost

def searchMatchWith (searchBody : BodySearch σ) : BodySearch σ :=
  fun env type found =>
    choose env.datatypes.entries (.noSymbols type.shape) fun (name, datatype) => do
      let arguments ← datatype.parameters.mapM fun _ => do
        return Skeleton.atom (.typeVar (← fresh Stem.typeVar)) ()
      let depth := (← read).parameters.scrutineeDepth
      searchTerm depth env (.scalar (.data name) arguments ()) fun env scrutinee => do
        let known ← applyAssignment scrutinee.type
        -- The type of the scrutinee has to be known by now.
        if known.typeVars.toList.any fun typeVar => !env.isBound typeVar then
          fail ⟨.escapingTypeVars known, none⟩
        else
          let (caseEnv, subject) ← nameScrutinee env scrutinee
          searchCases searchBody caseEnv subject known type
            (fun cases => found (.caseOf (scrutinee.withType known) cases type))
            datatype.constructors []

/-! ## Conditionals -/

def searchConditionalWith (searchBody : BodySearch σ) : BodySearch σ :=
  fun env type found => do
    let guard := Formula.unknown [] (← fresh Stem.guard)
    constrain (.wellFormedGuard env guard)
    searchBody (env.assume guard) type fun thenBranch =>
      searchBody (env.refute guard) type fun elseBranch =>
        found (.ite guard thenBranch elseBranch type)

/-! ## Bodies -/

def searchFunctionWith (searchScalar : BodySearch σ) : BodySearch σ
  | env, .function name argument result, found =>
      searchFunctionWith searchScalar (env.addVariable name argument) result
        fun body => found (.lambda name body (.function name argument result))
  | env, type, found => searchScalar env type found

def exhausted (budget : Budget) : BodySearch σ := fun _ _ _ =>
  fail (.depthExhausted budget)

def searchBodyWith (guessDepth : Nat) (searchMatch searchConditional : BodySearch σ) :
    BodySearch σ :=
  searchFunctionWith fun env type found =>
    choose [searchGuess guessDepth, searchMatch, searchConditional]
      (.noSymbols type.shape) fun search => search env type found

/-- Search with at most `matching` nested matches. `fewer` searches with one
conditional less, for a given number of matches, and is missing when none is
left. -/
def searchMatching (guessDepth : Nat) (fewer : Option (Nat → BodySearch σ)) :
    (matching : Nat) → BodySearch σ
  | 0 => searchBodyWith guessDepth (exhausted .matching) (withConditional 0)
  | matching + 1 =>
      searchBodyWith guessDepth
        (searchMatchWith (searchMatching guessDepth fewer matching))
        (withConditional (matching + 1))
where
  withConditional (matching : Nat) : BodySearch σ :=
    match fewer with
    | none => exhausted .conditional
    | some search => searchConditionalWith (search matching)

def searchBranching (guessDepth : Nat) :
    (conditional matching : Nat) → BodySearch σ
  | 0 => searchMatching guessDepth none
  | conditional + 1 =>
      searchMatching guessDepth (some (searchBranching guessDepth conditional))

def searchBody (depth : Depth) : BodySearch σ :=
  searchBranching depth.application depth.conditional depth.matching

def searchMatch (depth : Depth) : BodySearch σ :=
  match depth.matching with
  | 0 => exhausted .matching
  | matching + 1 => searchMatchWith (searchBody { depth with matching })

def searchConditional (depth : Depth) : BodySearch σ :=
  match depth.conditional with
  | 0 => exhausted .conditional
  | conditional + 1 => searchConditionalWith (searchBody { depth with conditional })

end Inhabit.Search
