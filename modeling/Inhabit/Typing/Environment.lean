import Inhabit.Typing.Assignment

/-! The scope of a program point: symbols with their schemas, bound type
variables, datatypes, the facts of the path that led there, and ghosts, which
name intermediate values that a program has no name for. -/

namespace Inhabit

/-- An algebraic datatype. The signatures of the constructors are those of the
symbols listed here. The metric, if there is one, measures values by naturals
and justifies structural recursion. -/
structure Datatype where
  parameters : List String
  constructors : List String
  metric : Option String := none
  deriving DecidableEq, Repr, Inhabited

structure Environment where
  /-- Symbols, by the arity of their types. -/
  symbols : SortedMap Nat (SortedMap String Schema) := ∅
  boundTypeVars : List String := []
  datatypes : SortedMap String Datatype := ∅
  /-- Facts that hold. -/
  assumptions : SortedSet Formula := ∅
  /-- Facts that do not hold. -/
  refutations : SortedSet Formula := ∅
  /-- Symbols whose declared type is taken as it is. -/
  constants : SortedSet String := ∅
  ghosts : SortedMap String RefinedType := ∅
  deriving DecidableEq, Inhabited

namespace Environment

instance : EmptyCollection Environment := ⟨{}⟩

/-! ## Queries -/

def symbolsOfArity (env : Environment) (arity : Nat) : SortedMap String Schema :=
  (env.symbols.find? arity).getD ∅

/-- The schema of a symbol. Of several with different arities the one of least
arity is taken. -/
def lookup? (env : Environment) (name : String) : Option Schema :=
  env.symbols.values.findSome? fun symbols => symbols.find? name

def maxArity (env : Environment) : Nat :=
  ((env.symbols.entries.filter fun entry => !entry.2.isEmpty).map Prod.fst).foldl
    max 0

def isBound (env : Environment) (typeVar : String) : Bool :=
  env.boundTypeVars.contains typeVar

def isConstant (env : Environment) (name : String) : Bool :=
  env.constants.contains name

def metric? (env : Environment) (datatype : String) : Option String :=
  (env.datatypes.find? datatype).bind Datatype.metric

/-! ## Extensions -/

def addSymbol (env : Environment) (name : String) (schema : Schema) : Environment :=
  { env with
    symbols := env.symbols.insert schema.arity
      ((env.symbolsOfArity schema.arity).insert name schema) }

def addVariable (env : Environment) (name : String) (type : RefinedType) :
    Environment :=
  env.addSymbol name (.mono type)

def addConstant (env : Environment) (name : String) (schema : Schema) :
    Environment :=
  { env with constants := env.constants.insert name }.addSymbol name schema

def addTypeVar (env : Environment) (name : String) : Environment :=
  if env.isBound name then env
  else { env with boundTypeVars := env.boundTypeVars ++ [name] }

def addDatatype (env : Environment) (name : String) (datatype : Datatype) :
    Environment :=
  { env with datatypes := env.datatypes.insert name datatype }

/-- Assume that a formula holds; the literal `top` says nothing. -/
def assume (env : Environment) (formula : Formula) : Environment :=
  if formula.isTrue then env
  else { env with assumptions := env.assumptions.insert formula }

def refute (env : Environment) (formula : Formula) : Environment :=
  if formula.isFalse then env
  else { env with refutations := env.refutations.insert formula }

def addGhost (env : Environment) (name : String) (type : RefinedType) :
    Environment :=
  { env with ghosts := env.ghosts.insert name type }

/-! ## Facts about scalars -/

/-- The symbols without quantifiers or arguments, followed by the ghosts, each
with its type under an assignment, as far as these types are scalar. -/
def scalarBindings (env : Environment) (assignment : TypeAssignment) :
    List (String × RefinedType) :=
  let symbols := (env.symbolsOfArity 0).entries.filterMap fun
    | (name, .mono type) => some (name, type)
    | (_, .forAll _ _) => none
  ((symbols ++ env.ghosts.entries).map fun binding =>
    (binding.1, assignment.apply binding.2)).filter fun binding =>
      binding.2.isScalar

/-- The terms that stand for a binding in qualifiers: its variable, preceded by
its measure where it is of a datatype with a metric. -/
def termsOf (env : Environment) (name : String) : RefinedType → List Formula
  | .scalar base _ _ =>
      let var := Formula.var base.sort name
      match base with
      | .data datatype =>
          match env.metric? datatype with
          | some metric => [.measure .int metric var, var]
          | none => [var]
      | _ => [var]
  | .function _ _ _ => []

def scalars (env : Environment) (assignment : TypeAssignment) : List Formula :=
  (env.scalarBindings assignment).flatMap fun binding =>
    env.termsOf binding.1 binding.2

/-- What the type of a variable says about it: its refinement, stated about
the variable instead of the value. -/
def factAbout (name : String) : RefinedType → Formula
  | .scalar base _ refinement =>
      refinement.substituteVar valueName (.var base.sort name)
  | .function _ _ _ => .top

/-- The facts that hold in scope: assumptions, and what the types of the scalars
that are not constants say about them. -/
def positives (env : Environment) (assignment : TypeAssignment) :
    SortedSet Formula :=
  (env.assumptions.map assignment.applyFormula).insertMany
    (((env.scalarBindings assignment).filter fun binding =>
      !env.isConstant binding.1).map (fun binding =>
        factAbout binding.1 binding.2) |>.filter fun fact => !fact.isTrue)

def negatives (env : Environment) (assignment : TypeAssignment) :
    SortedSet Formula :=
  env.refutations.map assignment.applyFormula

end Environment

def TypeAssignment.applyEnvironment (assignment : TypeAssignment)
    (env : Environment) : Environment :=
  { env with
    symbols := env.symbols.mapValues fun symbols =>
      symbols.mapValues assignment.applySchema
    ghosts := env.ghosts.mapValues assignment.apply
    assumptions := env.assumptions.map assignment.applyFormula
    refutations := env.refutations.map assignment.applyFormula }

end Inhabit
