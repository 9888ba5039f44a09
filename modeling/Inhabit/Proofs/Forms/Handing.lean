import Inhabit.Proofs.Faults.Constructors
import Inhabit.Proofs.Forms.Derivations
import Inhabit.Proofs.Guards.Scopes
import Inhabit.Proofs.Unknowns.Requests

/-! A search hands on nothing but what can be derived.

What is done with other programs makes no difference to what a search comes to. This
holds whatever is done with the programs that are handed on, so nothing has to be known
of the rest of the search. -/

namespace Inhabit

/-! ## Arities -/

theorem Skeleton.isScalar_lastType (t : Skeleton ρ) : t.lastType.isScalar = true := by
  induction t using Skeleton.arity.induct with
  | case1 => rfl
  | case2 _ _ _ induction => exact induction

theorem RefinedType.arity_instantiate (sorts : SortAssignment)
    (image : String → Option RefinedType) (t : RefinedType) :
    Skeleton.arity (t.instantiate sorts image) =
      t.arity + Skeleton.arity (RefinedType.instantiate sorts image t.lastType) := by
  induction t using Skeleton.arity.induct with
  | case1 => exact (Nat.zero_add _).symm
  | case2 name argument result induction =>
      rw [instantiate, Skeleton.arity, Skeleton.arity, Skeleton.lastType, induction]
      omega

theorem RefinedType.arity_instantiate_data {sorts : SortAssignment}
    {image : String → Option RefinedType} {t : RefinedType} {datatype : String}
    {arguments : List RefinedType} {refinement : Formula}
    (last : t.lastType = .scalar (.data datatype) arguments refinement) :
    Skeleton.arity (t.instantiate sorts image) = t.arity := by
  rw [arity_instantiate, last, instantiate_data]
  rfl

theorem Schema.arity_instantiate (schema : Schema) (names : NameSupply) :
    (schema.instantiate.run names).1.arity = schema.arity := by
  rcases schema.exists_images names with ⟨images, toVariables, equal⟩
  rw [equal, TypeAssignment.apply, RefinedType.arity_instantiate]
  have scalar := schema.body.isScalar_lastType
  have noArguments : Skeleton.arity (images.apply schema.body.lastType) = 0 := by
    cases last : schema.body.lastType with
    | function => cases last ▸ scalar
    | scalar base arguments refinement =>
        cases base with
        | typeVar name =>
            cases arguments with
            | nil =>
                rcases TypeAssignment.isVariable_apply toVariables ⟨name, refinement, rfl⟩
                  with ⟨_, _, isVariable⟩
                rw [isVariable]
                rfl
            | cons => rfl
        | _ => rfl
  exact congrArg (schema.body.arity + ·) noArguments

namespace Search

/-! ## Runs that come to the same -/

def Same {α : Type} (setting : Setting σ) (run other : Search σ α) : Prop :=
  ∀ memory, run setting memory = other setting memory

namespace Same

variable {σ : Type} {α β : Type} {setting : Setting σ}

theorem refl (run : Search σ α) : Same setting run run := fun _ => rfl

theorem bind {run : Search σ α} {rest other : α → Search σ β}
    (further : ∀ value, (∃ before after, run setting before = (.ok value, after)) →
      Same setting (rest value) (other value)) :
    Same setting (run >>= rest) (run >>= other) := by
  intro memory
  rw [run_bind, run_bind]
  cases ran : run setting memory with
  | mk outcome after =>
      cases outcome with
      | error interrupt => rfl
      | ok value => exact further value ⟨memory, after, ran⟩ after

theorem choose {options others : List α} {none : Failure} {attempt other : α → Search σ β}
    (each : List.Forall₂ (fun option alternative =>
      Same setting (attempt option) (other alternative)) options others) :
    Same setting (Search.choose options none attempt) (Search.choose others none other) := by
  induction each generalizing none with
  | nil => exact refl _
  | @cons option alternative _ _ first _ induction =>
      intro memory
      unfold Search.choose
      rw [← first memory]
      rcases attempt option setting memory with ⟨outcome, after⟩
      cases outcome with
      | ok _ => rfl
      | error interrupt =>
          cases interrupt with
          | trapped _ | unfinished => rfl
          | failed failure =>
              dsimp only
              split
              · rfl
              · exact induction _

theorem choose_options {options : List α} {none : Failure} {attempt other : α → Search σ β}
    (each : ∀ option ∈ options, Same setting (attempt option) (other option)) :
    Same setting (Search.choose options none attempt) (Search.choose options none other) :=
  choose (List.forall₂_same.mpr each)

end Same

variable {σ : Type} {setting : Setting σ}

/-- The search hands on no terms but those that are derived for its scope: what it comes
to only depends on what is done with those. -/
def HandsTerms (setting : Setting σ) (depth : Nat)
    (search : Environment → Shape → TermSink σ → Search σ Program) : Prop :=
  ∀ env shape found other,
    (∀ env' program, env.SameButGhosts env' → TermForm env depth program →
      Same setting (found env' program) (other env' program)) →
    Same setting (search env shape found) (search env shape other)

def HandsOnly (setting : Setting σ) (search : Sink σ → Search σ Program)
    (property : Program → Prop) : Prop :=
  ∀ found other,
    (∀ program, property program → Same setting (found program) (other program)) →
    Same setting (search found) (search other)

theorem HandsOnly.mono {search : Sink σ → Search σ Program} {property weaker : Program → Prop}
    (hands : HandsOnly setting search property)
    (implied : ∀ program, property program → weaker program) :
    HandsOnly setting search weaker :=
  fun found other agree => hands found other fun program holds =>
    agree program (implied program holds)

/-! ## Terms -/

theorem handsTerms_searchSymbol (depth : Nat) :
    HandsTerms setting depth searchSymbol := by
  intro env shape found other agree
  apply Same.choose_options
  rintro ⟨name, schema⟩ listed
  apply Same.bind
  intro type _
  apply Same.bind
  intro _ _
  apply Same.bind
  intro _ _
  exact agree env _ (.refl env) (.symbol listed _)

theorem handsTerms_searchApplicationWith {depth : Nat}
    {searchPart : Environment → Shape → TermSink σ → Search σ Program}
    (parts : HandsTerms setting depth searchPart) :
    HandsTerms setting (depth + 1) (searchApplicationWith searchPart) := by
  intro env shape found other agree
  unfold searchApplicationWith
  split
  · exact .refl _
  · apply Same.bind
    intro typeVar _
    apply Same.bind
    intro parameter _
    apply parts
    intro functionEnv function functionSame first
    dsimp only
    cases function.type with
    | scalar => exact .refl _
    | function formal expected result =>
        apply Same.bind
        intro applied _
        apply parts
        intro argumentEnv argument argumentSame second
        have same := functionSame.trans argumentSame
        have both := TermForm.application first (second.of_sameButGhosts functionSame)
        apply Same.bind
        intro _ _
        apply Same.bind
        intro _ _
        split
        · exact agree argumentEnv _ same (both _)
        · apply Same.bind
          intro ghost _
          exact agree _ _ (same.addGhost _ _) (both _)

theorem handsTerms_searchTerm (depth : Nat) :
    HandsTerms setting depth (searchTerm depth) := by
  induction depth with
  | zero =>
      intro env shape found other agree
      have symbols := handsTerms_searchSymbol 0 env shape found other agree
      exact Same.choose (.cons symbols (.cons (.refl _) .nil))
  | succ depth induction =>
      intro env shape found other agree
      have symbols := handsTerms_searchSymbol (depth + 1) env shape found other agree
      have applications :=
        handsTerms_searchApplicationWith induction env shape found other agree
      exact Same.choose (.cons symbols (.cons applications .nil))

/-! ## Cases -/

theorem exists_data_of_matchConstructor {constructorName : String}
    {result scrutinee : RefinedType} {memory after : Memory σ}
    (ran : matchConstructor constructorName result scrutinee setting memory =
      (.ok (), after)) :
    ∃ datatype parameters refinement,
      result = .scalar (.data datatype) parameters refinement := by
  unfold matchConstructor at ran
  split at ran
  · exact ⟨_, _, _, rfl⟩
  · cases ran

theorem arity_caseSignature {env : Environment} {constructorName : String}
    {scrutinee signature : RefinedType} {memory after : Memory σ}
    (ran : caseSignature env constructorName scrutinee setting memory =
      (.ok signature, after)) :
    ∃ schema, env.lookup? constructorName = some schema ∧
      signature.arity = schema.arity := by
  rcases exists_of_caseSignature_ok ran with ⟨schema, found, matched, rfl⟩
  rcases exists_data_of_matchConstructor matched with ⟨datatype, _, _, last⟩
  refine ⟨schema, found, ?_⟩
  rw [TypeAssignment.apply, RefinedType.arity_instantiate_data last, schema.arity_instantiate]

theorem length_fresh {stem : String} {count : Nat} {names : List String}
    {memory after : Memory σ}
    (ran : (List.replicate count stem).mapM fresh setting memory = (.ok names, after)) :
    names.length = count :=
  ((Yields.freshAll stem count).of_ok ran).2.1

theorem same_nameScrutinee {env caseEnv : Environment} {scrutinee : Program}
    {subject : String} {memory after : Memory σ}
    (ran : nameScrutinee env scrutinee setting memory = (.ok (caseEnv, subject), after)) :
    env.SameButGhosts caseEnv := by
  have ghost {memory : Memory σ} (ran : (do
        let name ← fresh Stem.ghost
        return (env.addGhost name scrutinee.type, name) : Search σ _) setting memory =
      (.ok (caseEnv, subject), after)) : env.SameButGhosts caseEnv := by
    rcases exists_of_bind_ok ran with ⟨name, _, _, ran⟩
    cases ran
    exact (Environment.SameButGhosts.refl env).addGhost _ _
  cases scrutinee with
  | symbol name type =>
      unfold nameScrutinee at ran
      dsimp only at ran
      split at ran
      · exact ghost ran
      · cases ran
        exact .refl env
  | _ => exact ghost ran

/-! ## Bodies -/

def HandsBodies (setting : Setting σ) (search : BodySearch σ)
    (form : Environment → RefinedType → Program → Prop) : Prop :=
  ∀ env type, HandsOnly setting (search env type) (form env type)

variable {guessDepth conditional matching : Nat}

theorem handsBodies_searchGuess : HandsBodies setting (searchGuess guessDepth)
    (BodyForm setting.parameters.scrutineeDepth guessDepth conditional matching) := by
  intro env type found other agree
  apply handsTerms_searchTerm
  intro env' program _ term
  apply Same.bind
  intro _ _
  apply Same.bind
  intro _ _
  exact agree _ (.guess term)

section Inner

variable {searchBody : BodySearch σ}

section Cases

variable {scrutineeDepth : Nat} {env : Environment} {subject : String}
  {scrutinee type : RefinedType}
  (hands : HandsBodies setting searchBody
    (BodyForm scrutineeDepth guessDepth conditional matching))

include hands

theorem same_searchCase {constructorName : String} {found other : Case Program → Search σ Program}
    (agree : ∀ case, CasesForm scrutineeDepth guessDepth conditional matching env type
      [constructorName] [case] → Same setting (found case) (other case)) :
    Same setting (searchCase searchBody env subject scrutinee constructorName type found)
      (searchCase searchBody env subject scrutinee constructorName type other) := by
  rw [searchCase_eq, searchCase_eq]
  apply Same.bind
  rintro signature ⟨_, _, signed⟩
  rcases arity_caseSignature signed with ⟨schema, declared, arity⟩
  apply Same.bind
  rintro binders ⟨_, _, drawn⟩
  apply hands
  intro body inner
  exact agree _ (.cons declared arity (length_fresh drawn) inner .nil)

theorem same_searchCases {constructors : List String} {done : List (Case Program)}
    {found other : List (Case Program) → Search σ Program}
    (agree : ∀ cases, CasesForm scrutineeDepth guessDepth conditional matching env type
      constructors cases → Same setting (found (done ++ cases)) (other (done ++ cases))) :
    Same setting (searchCases searchBody env subject scrutinee type found constructors done)
      (searchCases searchBody env subject scrutinee type other constructors done) := by
  induction constructors generalizing done with
  | nil =>
      have last := agree [] .nil
      rwa [List.append_nil] at last
  | cons constructorName rest induction =>
      apply same_searchCase hands
      intro case first
      apply induction
      intro cases others
      rw [List.append_assoc]
      cases first with
      | cons declared arity count inner _ =>
          exact agree _ (.cons declared arity count inner others)

end Cases

theorem handsBodies_searchMatchWith
    (hands : HandsBodies setting searchBody
      (BodyForm setting.parameters.scrutineeDepth guessDepth conditional matching)) :
    HandsBodies setting (searchMatchWith searchBody)
      (BodyForm setting.parameters.scrutineeDepth guessDepth conditional
        (matching + 1)) := by
  intro env type found other agree
  apply Same.choose_options
  rintro ⟨name, datatype⟩ listed
  apply Same.bind
  intro arguments _
  apply Same.bind
  rintro _ ⟨_, _, read⟩
  cases read
  apply handsTerms_searchTerm
  intro env' program same term
  apply Same.bind
  intro known _
  split
  · exact .refl _
  · apply Same.bind
    rintro ⟨caseEnv, subject⟩ ⟨_, _, named⟩
    apply same_searchCases hands
    intro cases each
    exact agree _ (.caseOf listed term known (same.trans (same_nameScrutinee named)) each)

theorem handsBodies_searchConditionalWith {scrutineeDepth : Nat}
    (hands : HandsBodies setting searchBody
      (BodyForm scrutineeDepth guessDepth conditional matching)) :
    HandsBodies setting (searchConditionalWith searchBody)
      (BodyForm scrutineeDepth guessDepth (conditional + 1) matching) := by
  intro env type found other agree
  apply Same.bind
  intro guard _
  apply Same.bind
  intro _ _
  apply hands
  intro thenBranch first
  apply hands
  intro elseBranch second
  exact agree _ (.conditional first second)

end Inner

theorem handsBodies_searchFunctionWith {scrutineeDepth : Nat} {searchScalar : BodySearch σ}
    (hands : HandsBodies setting searchScalar
      (BodyForm scrutineeDepth guessDepth conditional matching)) :
    HandsBodies setting (searchFunctionWith searchScalar)
      (BodyForm scrutineeDepth guessDepth conditional matching) := by
  intro env type
  induction type using Skeleton.arity.induct generalizing env with
  | case1 base arguments refinement => exact hands env _
  | case2 name argument result induction =>
      intro found other agree
      apply induction
      intro body inner
      exact agree _ (.lambda inner)

theorem handsBodies_exhausted (budget : Budget)
    (form : Environment → RefinedType → Program → Prop) :
    HandsBodies setting (exhausted budget) form :=
  fun _ _ _ _ _ => .refl _

theorem handsBodies_searchBodyWith {searchMatch searchConditional : BodySearch σ}
    (matches_ : HandsBodies setting searchMatch
      (BodyForm setting.parameters.scrutineeDepth guessDepth conditional matching))
    (conditionals : HandsBodies setting searchConditional
      (BodyForm setting.parameters.scrutineeDepth guessDepth conditional matching)) :
    HandsBodies setting (searchBodyWith guessDepth searchMatch searchConditional)
      (BodyForm setting.parameters.scrutineeDepth guessDepth conditional matching) := by
  apply handsBodies_searchFunctionWith
  intro env type found other agree
  have guesses := handsBodies_searchGuess env type found other agree
  have matched := matches_ env type found other agree
  have guarded := conditionals env type found other agree
  exact Same.choose (.cons guesses (.cons matched (.cons guarded .nil)))

theorem handsBodies_searchMatching {fewer : Option (Nat → BodySearch σ)}
    (hands : ∀ matching, HandsBodies setting (searchMatching.withConditional fewer matching)
      (BodyForm setting.parameters.scrutineeDepth guessDepth conditional matching))
    (matching : Nat) :
    HandsBodies setting (searchMatching guessDepth fewer matching)
      (BodyForm setting.parameters.scrutineeDepth guessDepth conditional matching) := by
  induction matching with
  | zero => exact handsBodies_searchBodyWith (handsBodies_exhausted _ _) (hands 0)
  | succ matching induction =>
      exact handsBodies_searchBodyWith (handsBodies_searchMatchWith induction)
        (hands (matching + 1))

theorem handsBodies_searchBranching (conditional matching : Nat) :
    HandsBodies setting (searchBranching guessDepth conditional matching)
      (BodyForm setting.parameters.scrutineeDepth guessDepth conditional matching) := by
  induction conditional generalizing matching with
  | zero => exact handsBodies_searchMatching (fun _ => handsBodies_exhausted _ _) matching
  | succ conditional induction =>
      apply handsBodies_searchMatching
      exact fun matching => handsBodies_searchConditionalWith (induction matching)

theorem handsBodies_searchBody (depth : Depth) :
    HandsBodies setting (searchBody depth)
      (BodyForm setting.parameters.scrutineeDepth depth.application depth.conditional
        depth.matching) :=
  handsBodies_searchBranching _ _

/-! ## Goals -/

theorem handsOnly_searchGoal (depth : Depth) (env : Environment) (schema : Schema) :
    HandsOnly setting (searchGoal depth env schema)
      (GoalForm setting.parameters depth env schema) := by
  intro found other agree
  induction schema generalizing env with
  | forAll name schema induction =>
      apply induction
      intro program form
      exact agree program (.forAll form)
  | mono type =>
      unfold searchGoal
      split
      · apply Same.bind
        rintro _ ⟨_, _, read⟩
        cases read
        apply Same.bind
        rintro ⟨scope, calls⟩ ⟨before, after, drawn⟩
        apply handsBodies_searchBody
        intro body inner
        have recursion : (recursiveScope env setting.parameters type).run before.names =
            ((scope, calls), after.names) := by
          cases drawn
          rfl
        exact agree _ (.function recursion inner)
      · apply handsBodies_searchBody
        intro program inner
        exact agree program (.scalar inner)

theorem yields_silent {α : Type} {run : Search σ α} {memory : Memory σ} :
    Yields setting silent run memory fun _ _ => True := by
  intro _
  rcases run setting memory with ⟨_ | _, _⟩
  · exact ⟨fun _ => trivial, fun _ => trivial⟩
  · exact ⟨trivial, trivial⟩

theorem upholds_silent : Upholds setting silent unasserted where
  lasting := by constructor <;> intros <;> trivial
  types := by constructor <;> intros <;> trivial
  scopes := by constructor <;> intros <;> trivial
  programs := by constructor <;> intros <;> trivial
  check _ _ _ _ _ := yields_silent.mono fun _ _ _ => ⟨trivial, trivial, fun _ _ _ _ => trivial⟩
  guard _ _ _ := yields_silent.mono fun _ _ _ => ⟨trivial, trivial, trivial, trivial⟩
  signature _ _ _ _ _ _ _ := yields_silent.mono fun _ _ _ => ⟨trivial, trivial, trivial⟩

theorem exists_of_searchGoal_ok {depth : Depth} {env : Environment} {schema : Schema}
    {found : Sink σ} {memory after : Memory σ} {result : Program}
    (ran : searchGoal depth env schema found setting memory = (.ok result, after)) :
    ∃ program before, GoalForm setting.parameters depth env schema program ∧
      found program setting before = (.ok result, after) := by
  classical
  let form := GoalForm setting.parameters depth env schema
  let other : Sink σ := fun program => if form program then found program else fail .unsatisfiable
  have same : Same setting (searchGoal depth env schema found)
      (searchGoal depth env schema other) := by
    apply handsOnly_searchGoal
    intro program derived memory
    rw [show other program = found program from if_pos derived]
  rw [same memory] at ran
  have yields : Yields setting silent (searchGoal depth env schema other) memory
      fun result after => ∃ program before, form program ∧
        found program setting before = (.ok result, after) := by
    apply keeps_searchGoal upholds_silent depth trivial trivial trivial
    intro program before _ _ _
    by_cases derived : form program
    · rw [show other program = found program from if_pos derived]
      intro _
      cases ended : found program setting before with
      | mk outcome after =>
          cases outcome with
          | ok result => exact ⟨trivial, program, before, derived, ended⟩
          | error interrupt => exact ⟨fun _ => trivial, fun _ => trivial⟩
    · rw [show other program = fail .unsatisfiable from if_neg derived]
      exact Yields.fail rfl
  exact yields.of_ok ran

end Search

end Inhabit
