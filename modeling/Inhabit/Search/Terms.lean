import Inhabit.Search.Solve

/-! Search for elimination terms: symbols, and applications of such terms to each
other, built bottom-up.

A search for a term is given what to do with a term that it has found. This rest
of the search runs inside the choice of the term, so that a later failure comes
back for another one. -/

namespace Inhabit.Search

abbrev TermSink (σ : Type) := Environment → Program → Search σ Program

/-- The type of a symbol as a term. A scalar that is not a constant gets the type
that says it is equal to the symbol. -/
def symbolType (env : Environment) (name : String) : RefinedType → RefinedType
  | .scalar base arguments refinement =>
      if env.isConstant name then .scalar base arguments refinement
      else .scalar base arguments (RefinedType.variableRefinement name base)
  | type => type

def searchSymbol (env : Environment) (shape : Shape) (found : TermSink σ) :
    Search σ Program :=
  choose (env.symbolsOfArity shape.arity).entries (.noSymbols shape)
    fun (name, schema) => do
      let type := symbolType env name (← naming schema.instantiate)
      constrain (.subtype env type.shape.refineBottom shape.refineTop)
      let program := Program.symbol name type
      solveIncrementally program
      found env program

/-- Try applications, with `searchPart` for the function and for the argument. The
argument of a function that takes a scalar is named by a ghost, which the type of
the application may speak of. -/
def searchApplicationWith
    (searchPart : Environment → Shape → TermSink σ → Search σ Program)
    (env : Environment) (shape : Shape) (found : TermSink σ) :
    Search σ Program := do
  -- No symbol takes more arguments than these.
  if shape.arity = env.maxArity then fail (.noSymbols shape)
  else
    let typeVar ← fresh Stem.typeVar
    let parameter ← fresh Stem.argument
    let functionShape : Shape :=
      .function parameter (.atom (.typeVar typeVar) ()) shape
    searchPart env functionShape fun env function => do
      match function.type with
      | .scalar _ _ _ => fail (.noSymbols functionShape)
      | .function formal expected result =>
          let argumentShape := (← applyAssignment expected).shape
          searchPart env argumentShape fun env argument => do
            constrain (.subtype env argument.type expected)
            solveIncrementally argument
            if expected.isFunction then
              found env (.app function argument result)
            else
              let ghost ← fresh Stem.ghost
              found (env.addGhost ghost argument.type)
                (.app function argument
                  (RefinedType.renameVar result formal ghost expected))

def searchTerm : (depth : Nat) → Environment → Shape → TermSink σ →
    Search σ Program
  | 0, env, shape, found =>
      choose [searchSymbol env shape found, fail (.depthExhausted .application)]
        (.noSymbols shape) id
  | depth + 1, env, shape, found =>
      choose [searchSymbol env shape found,
          searchApplicationWith (searchTerm depth) env shape found]
        (.noSymbols shape) id

def searchApplication : (depth : Nat) → Environment → Shape → TermSink σ →
    Search σ Program
  | 0, _, _, _ => fail (.depthExhausted .application)
  | depth + 1, env, shape, found =>
      searchApplicationWith (searchTerm depth) env shape found

end Inhabit.Search
