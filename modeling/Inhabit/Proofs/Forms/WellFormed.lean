import Inhabit.Proofs.Forms.Handing
import Inhabit.Proofs.Guards.Synthesis

/-! What a search hands on is well formed and well scoped.

Whether a program is well formed is told along its type: every body has the type that the
node above it asks for. A match is on a datatype in scope, with a case for each of its
constructors in order. -/

namespace Inhabit

namespace Environment

def HasSymbol (env : Environment) (name : String) : Prop :=
  ∃ arity schema, (name, schema) ∈ (env.symbolsOfArity arity).entries

def addVariables (env : Environment) (bindings : List (String × RefinedType)) : Environment :=
  bindings.foldl (fun env binding => env.addVariable binding.1 binding.2) env

structure Agrees (env other : Environment) : Prop where
  symbols : env.symbols = other.symbols
  datatypes : env.datatypes = other.datatypes

namespace Agrees

variable {env other : Environment}

theorem symm (agrees : env.Agrees other) : other.Agrees env :=
  ⟨agrees.symbols.symm, agrees.datatypes.symm⟩

theorem symbolsOfArity (agrees : env.Agrees other) (arity : Nat) :
    env.symbolsOfArity arity = other.symbolsOfArity arity := by
  unfold Environment.symbolsOfArity
  rw [agrees.symbols]

theorem hasSymbol (agrees : env.Agrees other) {name : String} (has : env.HasSymbol name) :
    other.HasSymbol name := by
  rcases has with ⟨arity, schema, listed⟩
  exact ⟨arity, schema, agrees.symbolsOfArity arity ▸ listed⟩

theorem lookup? (agrees : env.Agrees other) (name : String) :
    env.lookup? name = other.lookup? name := by
  unfold Environment.lookup?
  rw [agrees.symbols]

theorem addVariable (agrees : env.Agrees other) (name : String) (type : RefinedType) :
    (env.addVariable name type).Agrees (other.addVariable name type) where
  symbols := by
    unfold Environment.addVariable addSymbol
    rw [agrees.symbolsOfArity, agrees.symbols]
  datatypes := agrees.datatypes

theorem addVariables (agrees : env.Agrees other) (bindings : List (String × RefinedType)) :
    (env.addVariables bindings).Agrees (other.addVariables bindings) := by
  induction bindings generalizing env other with
  | nil => exact agrees
  | cons binding rest induction => exact induction (agrees.addVariable binding.1 binding.2)

theorem of_sameButGhosts (same : env.SameButGhosts other) : env.Agrees other := by
  rcases same with ⟨_, rfl⟩
  exact ⟨rfl, rfl⟩

theorem assume (env : Environment) (formula : Formula) :
    (env.assume formula).Agrees env := by
  unfold Environment.assume
  split <;> exact ⟨rfl, rfl⟩

theorem refute (env : Environment) (formula : Formula) :
    (env.refute formula).Agrees env := by
  unfold Environment.refute
  split <;> exact ⟨rfl, rfl⟩

theorem addTypeVar (env : Environment) (name : String) :
    (env.addTypeVar name).Agrees env := by
  unfold Environment.addTypeVar
  split <;> exact ⟨rfl, rfl⟩

end Agrees

section Names

variable {env : Environment} {name : String}

theorem hasSymbol_addSymbol {symbol : String} {schema : Schema}
    (has : (env.addSymbol symbol schema).HasSymbol name) : name = symbol ∨ env.HasSymbol name := by
  rcases has with ⟨arity, other, listed⟩
  rw [symbolsOfArity_addSymbol] at listed
  split at listed
  · exact (Entries.mem_insert listed).imp (congrArg Prod.fst) fun old => ⟨arity, other, old⟩
  · exact .inr ⟨arity, other, listed⟩

theorem hasSymbol_addSymbols {ι : Type} {schema : ι → Schema} {bindings : List (String × ι)}
    (has : (bindings.foldl (fun env binding => env.addSymbol binding.1 (schema binding.2))
      env).HasSymbol name) : name ∈ bindings.map Prod.fst ∨ env.HasSymbol name := by
  induction bindings generalizing env with
  | nil => exact .inr has
  | cons binding rest induction =>
      rcases induction has with later | added
      · exact .inl (List.mem_cons_of_mem _ later)
      · rcases hasSymbol_addSymbol added with rfl | old
        · exact .inl List.mem_cons_self
        · exact .inr old

end Names

end Environment

namespace Program

/-! ## Scopes -/

mutual

def SymbolsWithin (bound : String → Prop) : Program → Prop
  | .symbol name _ => bound name
  | .app function argument _ => SymbolsWithin bound function ∧ SymbolsWithin bound argument
  | .lambda parameter body _ => SymbolsWithin (fun name => name = parameter ∨ bound name) body
  | .fix names body _ => SymbolsWithin (fun name => name ∈ names ∨ bound name) body
  | .ite _ thenBranch elseBranch _ =>
      SymbolsWithin bound thenBranch ∧ SymbolsWithin bound elseBranch
  | .caseOf scrutinee cases _ =>
      SymbolsWithin bound scrutinee ∧ SymbolsWithinCases bound cases
termination_by structural program => program

def SymbolsWithinCases (bound : String → Prop) : List (Case Program) → Prop
  | [] => True
  | ⟨_, binders, body⟩ :: rest =>
      SymbolsWithin (fun name => name ∈ binders ∨ bound name) body ∧
        SymbolsWithinCases bound rest
termination_by structural cases => cases

end

section Symbols

variable {bound wider : String → Prop}

theorem symbolsWithinCases_iff {cases : List (Case Program)} :
    SymbolsWithinCases bound cases ↔ ∀ case ∈ cases,
      SymbolsWithin (fun name => name ∈ case.binders ∨ bound name) case.body := by
  induction cases with
  | nil => exact iff_of_true trivial (List.forall_mem_nil _)
  | cons case rest induction => rw [SymbolsWithinCases, induction, List.forall_mem_cons]

theorem SymbolsWithin.mono {program : Program} (within : program.SymbolsWithin bound)
    (widens : ∀ name, bound name → wider name) : program.SymbolsWithin wider := by
  induction program using Program.induction generalizing bound wider with
  | symbol name type => exact widens name within
  | app function argument type first second =>
      exact within.imp (first · widens) (second · widens)
  | lambda parameter body type induction | fix names body type induction =>
      exact induction within fun name => Or.imp_right (widens name)
  | ite guard thenBranch elseBranch type first second =>
      exact within.imp (first · widens) (second · widens)
  | caseOf scrutinee cases type subject each =>
      refine ⟨subject within.1 widens, symbolsWithinCases_iff.mpr fun case member => ?_⟩
      exact each case member (symbolsWithinCases_iff.mp within.2 case member) fun name =>
        Or.imp_right (widens name)

theorem symbolsWithin_withType {program : Program} {type : RefinedType} :
    (program.withType type).SymbolsWithin bound ↔ program.SymbolsWithin bound := by
  cases program <;> rfl

theorem symbolsWithin_mapAnnotations {program : Program}
    {typeMap : RefinedType → RefinedType} {guardMap : Formula → Formula} :
    (program.mapAnnotations typeMap guardMap).SymbolsWithin bound ↔
      program.SymbolsWithin bound := by
  induction program using Program.induction generalizing bound with
  | symbol name type => rfl
  | app function argument type first second => exact and_congr first second
  | lambda parameter body type induction | fix names body type induction => exact induction
  | ite guard thenBranch elseBranch type first second => exact and_congr first second
  | caseOf scrutinee cases type subject each =>
      apply and_congr subject
      rw [mapAnnotationsCases_eq_map, symbolsWithinCases_iff, symbolsWithinCases_iff,
        List.forall_mem_map]
      exact forall₂_congr fun case member => each case member

end Symbols

/-! ## Introduction terms -/

mutual

/-- The program introduces a value of the type, and is annotated with it. So are the
branches of a conditional and the bodies of a match; the body of a function is annotated
with what the function returns. There are no bodies in terms. -/
def IsIntroduction : Environment → RefinedType → Program → Prop
  | _, type, .symbol _ annotation => annotation = type
  | _, type, .app function argument annotation =>
      annotation = type ∧ function.IsTerm ∧ argument.IsTerm
  | env, type, .lambda parameter body annotation =>
      annotation = type ∧ ∃ argument result, type = .function parameter argument result ∧
        IsIntroduction (env.addVariable parameter argument) result body
  | _, _, .fix _ _ _ => False
  | env, type, .ite _ thenBranch elseBranch annotation =>
      annotation = type ∧ IsIntroduction env type thenBranch ∧
        IsIntroduction env type elseBranch
  | env, type, .caseOf scrutinee cases annotation =>
      annotation = type ∧ scrutinee.IsTerm ∧
        (∃ entry ∈ env.datatypes.entries,
          cases.map Case.constructorName = entry.2.constructors) ∧
        AreCases env type cases
termination_by structural _ _ program => program

def AreCases : Environment → RefinedType → List (Case Program) → Prop
  | _, _, [] => True
  | env, type, ⟨constructorName, binders, body⟩ :: rest =>
      (∃ schema, env.lookup? constructorName = some schema ∧ binders.length = schema.arity) ∧
        (∃ bindings, bindings.map Prod.fst = binders ∧
          IsIntroduction (env.addVariables bindings) type body) ∧
        AreCases env type rest
termination_by structural _ _ cases => cases

end

theorem areCases_iff {env : Environment} {type : RefinedType} {cases : List (Case Program)} :
    AreCases env type cases ↔ ∀ case ∈ cases,
      (∃ schema, env.lookup? case.constructorName = some schema ∧
        case.binders.length = schema.arity) ∧
      ∃ bindings, bindings.map Prod.fst = case.binders ∧
        IsIntroduction (env.addVariables bindings) type case.body := by
  induction cases with
  | nil => exact iff_of_true trivial (List.forall_mem_nil _)
  | cons case rest induction => rw [AreCases, induction, List.forall_mem_cons, and_assoc]

theorem IsIntroduction.of_agrees {program : Program} {env other : Environment}
    {type : RefinedType} (introduces : program.IsIntroduction env type)
    (agrees : env.Agrees other) : program.IsIntroduction other type := by
  induction program using Program.induction generalizing env other type with
  | symbol | app => exact introduces
  | lambda parameter body annotation induction =>
      rcases introduces with ⟨annotated, argument, result, equal, inner⟩
      exact ⟨annotated, argument, result, equal,
        induction inner (agrees.addVariable parameter argument)⟩
  | fix => cases introduces
  | ite guard thenBranch elseBranch annotation first second =>
      exact ⟨introduces.1, first introduces.2.1 agrees, second introduces.2.2 agrees⟩
  | caseOf scrutinee cases annotation subject each =>
      rcases introduces with ⟨annotated, isTerm, declared, areCases⟩
      refine ⟨annotated, isTerm, agrees.datatypes ▸ declared, areCases_iff.mpr ?_⟩
      intro case member
      rcases areCases_iff.mp areCases case member with ⟨counted, bindings, bound, inner⟩
      exact ⟨agrees.lookup? case.constructorName ▸ counted, bindings, bound,
        each case member inner (agrees.addVariables bindings)⟩

theorem IsTerm.isIntroduction {program : Program} (isTerm : program.IsTerm) (env : Environment)
    (type : RefinedType) : (program.withType type).IsIntroduction env type := by
  cases program with
  | symbol => exact rfl
  | app => exact ⟨rfl, isTerm⟩
  | lambda | fix | ite | caseOf => cases isTerm

end Program

namespace Search

open Program

/-! ## Derivations -/

theorem names_caseBindings {binders : List String} {signature : RefinedType}
    (count : binders.length = signature.arity) :
    (caseBindings binders signature).map Prod.fst = binders := by
  induction binders generalizing signature with
  | nil => rfl
  | cons name rest induction =>
      cases signature with
      | scalar => cases count
      | function parameter argument result =>
          apply congrArg (name :: ·)
          apply induction
          rw [RefinedType.arity_renameVar]
          exact Nat.succ.inj count

theorem TermForm.symbolsWithin {env : Environment} {depth : Nat} {program : Program}
    (form : TermForm env depth program) : program.SymbolsWithin env.HasSymbol := by
  induction form with
  | symbol listed => exact ⟨_, _, listed⟩
  | application _ _ _ first second => exact ⟨first, second⟩

variable {scrutineeDepth guessDepth : Nat}

mutual

theorem BodyForm.isIntroduction : {conditional matching : Nat} → {env : Environment} →
    {type : RefinedType} → {program : Program} →
    BodyForm scrutineeDepth guessDepth conditional matching env type program →
      program.IsIntroduction env type
  | _, _, env, type, _, .guess term => term.isTerm.isIntroduction env type
  | _, _, _, _, _, .lambda inner => ⟨rfl, _, _, rfl, inner.isIntroduction⟩
  | _, _, env, _, _, .conditional first second =>
      ⟨rfl, first.isIntroduction.of_agrees (.assume env _),
        second.isIntroduction.of_agrees (.refute env _)⟩
  | _, _, _, _, _, .caseOf listed term known same each =>
      have agrees := Environment.Agrees.of_sameButGhosts same
      have declared := each.areCases
      ⟨rfl, isTerm_withType.mpr term.isTerm, ⟨_, listed, declared.1⟩,
        areCases_iff.mpr fun case member =>
          have ⟨counted, bindings, bound, inner⟩ := areCases_iff.mp declared.2 case member
          ⟨(agrees.lookup? case.constructorName).symm ▸ counted, bindings, bound,
            inner.of_agrees (agrees.symm.addVariables bindings)⟩⟩

theorem CasesForm.areCases : {conditional matching : Nat} → {env : Environment} →
    {type : RefinedType} → {constructors : List String} → {cases : List (Case Program)} →
    CasesForm scrutineeDepth guessDepth conditional matching env type constructors cases →
      cases.map Case.constructorName = constructors ∧ AreCases env type cases
  | _, _, _, _, _, _, .nil => ⟨rfl, trivial⟩
  | _, _, _, _, _, _, .cons found signed count first rest =>
      ⟨congrArg (_ :: ·) rest.areCases.1, ⟨_, found, count.trans signed⟩,
        ⟨_, names_caseBindings count, first.isIntroduction.of_agrees (.assume _ _)⟩,
        rest.areCases.2⟩

end

mutual

theorem BodyForm.symbolsWithin : {conditional matching : Nat} → {env : Environment} →
    {type : RefinedType} → {program : Program} →
    BodyForm scrutineeDepth guessDepth conditional matching env type program →
      program.SymbolsWithin env.HasSymbol
  | _, _, _, _, _, .guess term => symbolsWithin_withType.mpr term.symbolsWithin
  | _, _, _, _, _, .lambda inner =>
      inner.symbolsWithin.mono fun _ => Environment.hasSymbol_addSymbol
  | _, _, env, _, _, .conditional first second =>
      ⟨first.symbolsWithin.mono fun _ => (Environment.Agrees.assume env _).hasSymbol,
        second.symbolsWithin.mono fun _ => (Environment.Agrees.refute env _).hasSymbol⟩
  | _, _, _, _, _, .caseOf _ term _ same each =>
      have agrees := (Environment.Agrees.of_sameButGhosts same).symm
      ⟨symbolsWithin_withType.mpr term.symbolsWithin,
        symbolsWithinCases_iff.mpr fun case member =>
          (each.symbolsWithin case member).mono fun _ => Or.imp_right agrees.hasSymbol⟩

theorem CasesForm.symbolsWithin : {conditional matching : Nat} → {env : Environment} →
    {type : RefinedType} → {constructors : List String} → {cases : List (Case Program)} →
    CasesForm scrutineeDepth guessDepth conditional matching env type constructors cases →
      ∀ case ∈ cases,
        case.body.SymbolsWithin fun name => name ∈ case.binders ∨ env.HasSymbol name
  | _, _, _, _, _, _, .nil => List.forall_mem_nil _
  | _, _, _, _, _, _, .cons _ _ count first rest =>
      List.forall_mem_cons.mpr ⟨first.symbolsWithin.mono fun _ has =>
        names_caseBindings count ▸
          Environment.hasSymbol_addSymbols ((Environment.Agrees.assume _ _).hasSymbol has),
        rest.symbolsWithin⟩

end

theorem GoalForm.symbolsWithin {parameters : Parameters} {depth : Depth} {env : Environment}
    {schema : Schema} {program : Program} (form : GoalForm parameters depth env schema program) :
    program.SymbolsWithin env.HasSymbol := by
  induction form with
  | @forAll env name schema program inner induction =>
      exact induction.mono fun _ => (Environment.Agrees.addTypeVar env name).hasSymbol
  | scalar inner => exact inner.symbolsWithin
  | @function env scope type names after calls body recursion inner =>
      have within : body.SymbolsWithin fun name => name ∈ calls ∨ env.HasSymbol name := by
        apply inner.symbolsWithin.mono
        intro name has
        cases recursion
        exact Environment.hasSymbol_addSymbols has
      split
      case isTrue empty =>
        rw [List.isEmpty_iff.mp empty] at within
        exact within.mono fun _ either => either.resolve_left List.not_mem_nil
      case isFalse => exact within

end Search

open Search in
/-- What is synthesized has no symbols but those of the goal and those that it binds
itself. The programs that a search for a body hands on are well formed, whatever becomes of
them. -/
theorem synthesized_well_formed (setting : Setting σ) :
    (∀ goal solver program after,
      synthesize setting goal solver = (.ok program, after) →
        program.SymbolsWithin goal.environment.HasSymbol) ∧
    ∀ depth env type, HandsOnly setting (searchBody depth env type) fun program =>
      program.IsIntroduction env type := by
  constructor
  · intro goal solver program after ran
    rcases synthesize_cases ran with ⟨memory, _, ⟨_, equal, found⟩ | ⟨_, equal, _⟩ | equal⟩
    case inr.inl | inr.inr => cases equal
    cases equal
    rcases exists_of_bind_ok found with ⟨_, _, read, searched⟩
    cases read
    rcases exists_of_searchGoal_ok searched with ⟨fragment, before, form, ended⟩
    rcases exists_of_bind_ok ended with ⟨_, _, _, finished⟩
    cases finished
    exact Program.symbolsWithin_mapAnnotations.mpr form.symbolsWithin
  · exact fun depth env type => (handsBodies_searchBody depth env type).mono
      fun _ form => form.isIntroduction

section Boxes

def openSetting : Setting Record where
  parameters :=
    { applicationDepth := 0, scrutineeDepth := 0, matchDepth := 1, conditionDepth := 0 }
  solver := .fixed true
  sources := .none
  steps := 40

def openGoal : Goal where
  name := "open"
  environment := (∅ : Environment).addDatatype "Box" ⟨[], ["box"], some "size"⟩
    |>.addConstant "box"
      (.mono (.function "n" (.atom .bool .top) (.atom (.data "Box") .top)))
  schema := .mono (.function "b" (.atom (.data "Box") .top) (.atom .bool .top))

private theorem run_openGoal :
    (synthesize openSetting openGoal {}).1.toOption.map Program.render =
      some "fix _f1 . \\b . match b with box _z2 -> _z2" := by
  decide +kernel

theorem openGoal_well_formed : ∃ program after,
    synthesize openSetting openGoal {} = (.ok program, after) ∧
      program.render = "fix _f1 . \\b . match b with box _z2 -> _z2" ∧
        program.SymbolsWithin openGoal.environment.HasSymbol := by
  rcases exists_of_map_toOption run_openGoal with ⟨program, after, ran, told⟩
  exact ⟨program, after, ran, told, (synthesized_well_formed openSetting).1 _ _ _ _ ran⟩

end Boxes

end Inhabit
