import Inhabit.Proofs.Search.Signatures
import Inhabit.Search.RecursiveCalls

/-! The programs that a search can put together.

What a search hands on is derived by rules: one for each way to build a term or a body.
A derivation knows the scope and the budgets of a program, but nothing of the branch
that the program was found in. -/

namespace Inhabit

/-- The scope with other ghosts. Ghosts are no symbols, so no program speaks of them. -/
def Environment.SameButGhosts (env other : Environment) : Prop :=
  ∃ ghosts, other = { env with ghosts }

namespace Environment.SameButGhosts

variable {env other third : Environment}

theorem refl (env : Environment) : env.SameButGhosts env := ⟨env.ghosts, rfl⟩

theorem trans (first : env.SameButGhosts other) (second : other.SameButGhosts third) :
    env.SameButGhosts third := by
  rcases first with ⟨_, rfl⟩
  rcases second with ⟨ghosts, rfl⟩
  exact ⟨ghosts, rfl⟩

theorem addGhost (same : env.SameButGhosts other) (name : String) (type : RefinedType) :
    env.SameButGhosts (other.addGhost name type) :=
  same.trans ⟨_, rfl⟩

theorem boundTypeVars (same : env.SameButGhosts other) :
    other.boundTypeVars = env.boundTypeVars := by
  rcases same with ⟨_, rfl⟩
  rfl

theorem symbols (same : env.SameButGhosts other) : other.symbols = env.symbols := by
  rcases same with ⟨_, rfl⟩
  rfl

end Environment.SameButGhosts

namespace Program

def IsTerm : Program → Prop
  | .symbol _ _ => True
  | .app function argument _ => IsTerm function ∧ IsTerm argument
  | _ => False
termination_by structural program => program

theorem isTerm_withType {program : Program} {type : RefinedType} :
    (program.withType type).IsTerm ↔ program.IsTerm := by
  cases program <;> rfl

end Program

namespace Search

/-! ## Rules -/

inductive TermForm (env : Environment) : (depth : Nat) → Program → Prop where
  | symbol {depth arity : Nat} {name : String} {schema : Schema}
      (listed : (name, schema) ∈ (env.symbolsOfArity arity).entries) (type : RefinedType) :
      TermForm env depth (.symbol name type)
  | application {depth : Nat} {function argument : Program}
      (first : TermForm env depth function) (second : TermForm env depth argument)
      (type : RefinedType) : TermForm env (depth + 1) (.app function argument type)

mutual

inductive BodyForm (scrutineeDepth guessDepth : Nat) :
    (conditional matching : Nat) → Environment → RefinedType → Program → Prop where
  | guess {conditional matching : Nat} {env : Environment} {type : RefinedType}
      {program : Program} (term : TermForm env guessDepth program) :
      BodyForm scrutineeDepth guessDepth conditional matching env type
        (program.withType type)
  | lambda {conditional matching : Nat} {env : Environment} {name : String}
      {argument result : RefinedType} {body : Program}
      (inner : BodyForm scrutineeDepth guessDepth conditional matching
        (env.addVariable name argument) result body) :
      BodyForm scrutineeDepth guessDepth conditional matching env
        (.function name argument result) (.lambda name body (.function name argument result))
  | conditional {conditional matching : Nat} {env : Environment} {type : RefinedType}
      {guard : Formula} {thenBranch elseBranch : Program}
      (first : BodyForm scrutineeDepth guessDepth conditional matching (env.assume guard)
        type thenBranch)
      (second : BodyForm scrutineeDepth guessDepth conditional matching (env.refute guard)
        type elseBranch) :
      BodyForm scrutineeDepth guessDepth (conditional + 1) matching env type
        (.ite guard thenBranch elseBranch type)
  | caseOf {conditional matching : Nat} {env caseEnv : Environment}
      {type : RefinedType} {name : String} {datatype : Datatype} {scrutinee : Program}
      {cases : List (Case Program)} (listed : (name, datatype) ∈ env.datatypes.entries)
      (term : TermForm env scrutineeDepth scrutinee) (known : RefinedType)
      (same : env.SameButGhosts caseEnv)
      (each : CasesForm scrutineeDepth guessDepth conditional matching caseEnv type
        datatype.constructors cases) :
      BodyForm scrutineeDepth guessDepth conditional (matching + 1) env type
        (.caseOf (scrutinee.withType known) cases type)

/-- Cases for a list of constructors, each with a binder for every argument that the
constructor has in the scope. -/
inductive CasesForm (scrutineeDepth guessDepth : Nat) :
    (conditional matching : Nat) → Environment → RefinedType → (constructors : List String) →
      List (Case Program) → Prop where
  | nil {conditional matching : Nat} {env : Environment} {type : RefinedType} :
      CasesForm scrutineeDepth guessDepth conditional matching env type [] []
  | cons {conditional matching : Nat} {env : Environment} {constructorName subject : String}
      {type signature scrutinee : RefinedType} {schema : Schema}
      {constructors binders : List String} {body : Program} {cases : List (Case Program)}
      (found : env.lookup? constructorName = some schema)
      (signed : signature.arity = schema.arity) (count : binders.length = signature.arity)
      (first : BodyForm scrutineeDepth guessDepth conditional matching
        (((caseBindings binders signature).foldl
          (fun env binding => env.addVariable binding.1 binding.2) env).assume
            (Environment.factAbout subject scrutinee)) type body)
      (rest : CasesForm scrutineeDepth guessDepth conditional matching env type constructors
        cases) :
      CasesForm scrutineeDepth guessDepth conditional matching env type
        (constructorName :: constructors) ({ constructorName, binders, body } :: cases)

end

/-- A program for a goal. The body of a function may make recursive calls, which are
bound around it. -/
inductive GoalForm (parameters : Parameters) (depth : Depth) :
    Environment → Schema → Program → Prop where
  | forAll {env : Environment} {name : String} {schema : Schema} {program : Program}
      (inner : GoalForm parameters depth (env.addTypeVar name) schema program) :
      GoalForm parameters depth env (.forAll name schema) program
  | scalar {env : Environment} {type : RefinedType} {program : Program}
      (inner : BodyForm parameters.scrutineeDepth depth.application depth.conditional
        depth.matching env type program) :
      GoalForm parameters depth env (.mono type) program
  | function {env scope : Environment} {type : RefinedType} {names after : NameSupply}
      {calls : List String} {body : Program}
      (recursion : (recursiveScope env parameters type).run names = ((scope, calls), after))
      (inner : BodyForm parameters.scrutineeDepth depth.application depth.conditional
        depth.matching scope type body) :
      GoalForm parameters depth env (.mono type)
        (if calls.isEmpty then body else .fix calls body body.type)

theorem TermForm.isTerm {env : Environment} {depth : Nat} {program : Program}
    (form : TermForm env depth program) : program.IsTerm := by
  induction form with
  | symbol => trivial
  | application _ _ _ first second => exact ⟨first, second⟩

theorem TermForm.of_sameButGhosts {env other : Environment} {depth : Nat}
    {program : Program} (form : TermForm other depth program)
    (same : env.SameButGhosts other) : TermForm env depth program := by
  rcases same with ⟨ghosts, rfl⟩
  induction form with
  | symbol listed type => exact @TermForm.symbol env _ _ _ _ listed type
  | application _ _ type first second => exact .application first second type

end Search

end Inhabit
