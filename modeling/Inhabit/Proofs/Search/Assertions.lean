import Inhabit.Proofs.Search.Signatures

/-! What can be asserted along the branches of a search.

The assertions are about the state of a branch and about the scopes, types and
programs that the search carries with it. A search takes few kinds of steps, which
are to uphold them. -/

namespace Inhabit

structure Assertions where
  state : SearchState → Prop
  /-- How a state may differ after a term has been searched for. -/
  grows : SearchState → SearchState → Prop
  /-- How a state may differ further along a branch. -/
  later : SearchState → SearchState → Prop
  scope : SearchState → Environment → Prop
  type : SearchState → RefinedType → Prop
  /-- Of the types that a body is searched for. -/
  goal : SearchState → RefinedType → Prop
  /-- What is known of the type of a term that was searched for by a shape. -/
  fits : SearchState → Shape → RefinedType → Prop
  /-- What is known of the type of a scrutinee of a datatype. -/
  scrutinee : String → Datatype → RefinedType → Prop
  body : SearchState → Program → Prop

/-- The shape that a scrutinee is searched for by. -/
def Shape.dataOf (name : String) (typeVars : List String) : Shape :=
  .scalar (.data name) (typeVars.map fun typeVar => .atom (.typeVar typeVar) ()) ()

namespace Assertions

variable (assertions : Assertions)

/-- What is asserted at a state stays so later on. -/
structure Lasting : Prop where
  refl (state : SearchState) : assertions.grows state state
  trans {first second third : SearchState} (early : assertions.grows first second)
    (late : assertions.grows second third) : assertions.grows first third
  laterOfGrows {before after : SearchState} (grows : assertions.grows before after) :
    assertions.later before after
  laterTrans {first second third : SearchState} (early : assertions.later first second)
    (late : assertions.later second third) : assertions.later first third
  scope {before after : SearchState} {env : Environment}
    (later : assertions.later before after) (holds : assertions.scope before env) :
    assertions.scope after env
  type {before after : SearchState} {t : RefinedType}
    (later : assertions.later before after) (holds : assertions.type before t) :
    assertions.type after t
  goal {before after : SearchState} {t : RefinedType}
    (later : assertions.later before after) (holds : assertions.goal before t) :
    assertions.goal after t
  body {before after : SearchState} {program : Program}
    (later : assertions.later before after) (holds : assertions.body before program) :
    assertions.body after program
  fits {before after : SearchState} {shape : Shape} {t : RefinedType}
    (grows : assertions.grows before after) (holds : assertions.fits before shape t) :
    assertions.fits after shape t

structure Typed : Prop where
  symbol {state : SearchState} {env : Environment} {arity : Nat} {name : String}
    {schema : Schema} (names : NameSupply) (scope : assertions.scope state env)
    (listed : (name, schema) ∈ (env.symbolsOfArity arity).entries) :
    assertions.type state
      (Search.symbolType env name (schema.instantiate.run names).1)
  goal {state : SearchState} {t : RefinedType} (holds : assertions.goal state t) :
    assertions.type state t
  bottom {state : SearchState} {t : RefinedType} (holds : assertions.type state t) :
    assertions.type state t.shape.refineBottom
  top {state : SearchState} {t : RefinedType} (holds : assertions.type state t) :
    assertions.type state t.shape.refineTop
  functionTop {state : SearchState} {shape : Shape} (parameter typeVar : String)
    (holds : assertions.type state (Shape.refineTop shape)) :
    assertions.type state
      (Shape.refineTop (.function parameter (.atom (.typeVar typeVar) ()) shape))
  dataTop (state : SearchState) (name : String) (typeVars : List String) :
    assertions.type state (Shape.refineTop (.dataOf name typeVars))
  argument {state : SearchState} {x : String} {argument result : RefinedType}
    (holds : assertions.type state (.function x argument result)) :
    assertions.type state argument
  result {state : SearchState} {x : String} {argument result : RefinedType}
    (holds : assertions.type state (.function x argument result)) :
    assertions.type state result
  renamed {state : SearchState} {t : RefinedType} (old new : String)
    (oldType : RefinedType) (holds : assertions.type state t) :
    assertions.type state (RefinedType.renameVar t old new oldType)
  applied {state : SearchState} {t : RefinedType} (sound : assertions.state state)
    (holds : assertions.type state t) :
    assertions.type state (state.assignment.apply t)
  fitsResult {state : SearchState} {parameter x : String} {argument shape : Shape}
    {expected result : RefinedType}
    (fits : assertions.fits state (.function parameter argument shape)
      (.function x expected result)) : assertions.fits state shape result
  fitsRenamed {state : SearchState} {shape : Shape} {t : RefinedType} (old new : String)
    (oldType : RefinedType) (fits : assertions.fits state shape t) :
    assertions.fits state shape (RefinedType.renameVar t old new oldType)
  scrutinee {state : SearchState} {name : String} {typeVars : List String}
    {datatype : Datatype} {t : RefinedType}
    (fits : assertions.fits state (.dataOf name typeVars) t)
    (length : typeVars.length = datatype.parameters.length) :
    assertions.scrutinee name datatype (state.assignment.apply t)

structure Scoped : Prop where
  ghost {state : SearchState} {env : Environment} {t : RefinedType} (name : String)
    (scope : assertions.scope state env) (type : assertions.type state t) :
    assertions.scope state (env.addGhost name t)
  binder {state : SearchState} {env : Environment} {t : RefinedType} (number : Nat)
    (scope : assertions.scope state env) (type : assertions.type state t) :
    assertions.scope state (env.addVariable (Stem.caseBinder ++ toString number) t)
  fact {state : SearchState} {env : Environment} {t : RefinedType} (name : String)
    (scope : assertions.scope state env) (type : assertions.type state t) :
    assertions.scope state (env.assume (Environment.factAbout name t))
  argument {state : SearchState} {env : Environment} {x : String}
    {argument result : RefinedType} (scope : assertions.scope state env)
    (goal : assertions.goal state (.function x argument result)) :
    assertions.scope state (env.addVariable x argument)
  result {state : SearchState} {x : String} {argument result : RefinedType}
    (goal : assertions.goal state (.function x argument result)) :
    assertions.goal state result
  typeVar {state : SearchState} {env : Environment} (name : String)
    (scope : assertions.scope state env) : assertions.scope state (env.addTypeVar name)
  recursion {state : SearchState} {env : Environment} {t : RefinedType}
    (parameters : Parameters) (names : NameSupply) (scope : assertions.scope state env)
    (goal : assertions.goal state t) :
    assertions.scope state ((recursiveScope env parameters t).run names).1.1

structure Built : Prop where
  symbol {state : SearchState} {t : RefinedType} (name : String)
    (type : assertions.type state t) : assertions.body state (.symbol name t)
  application {state : SearchState} {function argument : Program} {t : RefinedType}
    (left : assertions.body state function) (right : assertions.body state argument)
    (type : assertions.type state t) :
    assertions.body state (.app function argument t)
  withType {state : SearchState} {program : Program} {t : RefinedType}
    (body : assertions.body state program) (type : assertions.type state t) :
    assertions.body state (program.withType t)
  lambda {state : SearchState} {body : Program} {t : RefinedType} (x : String)
    (holds : assertions.body state body) (type : assertions.type state t) :
    assertions.body state (.lambda x body t)
  fix {state : SearchState} {body : Program} (names : List String)
    (holds : assertions.body state body) :
    assertions.body state (.fix names body body.type)
  conditional {state : SearchState} {env : Environment} {guard : String}
    {thenBranch elseBranch : Program} {t : RefinedType}
    (scope : assertions.scope state (env.assume (.unknown [] guard)))
    (left : assertions.body state thenBranch) (right : assertions.body state elseBranch)
    (type : assertions.type state t) :
    assertions.body state (.ite (.unknown [] guard) thenBranch elseBranch t)
  caseOf {state : SearchState} {scrutinee : Program} {cases : List (Case Program)}
    {t : RefinedType} (subject : assertions.body state scrutinee)
    (each : ∀ case ∈ cases, assertions.body state case.body)
    (type : assertions.type state t) :
    assertions.body state (.caseOf scrutinee cases t)

end Assertions

namespace Search

variable {σ : Type} {setting : Setting σ} {promise : Promise σ} {assertions : Assertions}

/-- The steps of a search uphold the assertions. -/
structure Upholds (setting : Setting σ) (promise : Promise σ) (assertions : Assertions) :
    Prop where
  lasting : assertions.Lasting
  types : assertions.Typed
  scopes : assertions.Scoped
  programs : assertions.Built
  check {memory : Memory σ} {env : Environment} {left right : RefinedType}
    {program : Program} (state : assertions.state memory.state)
    (scope : assertions.scope memory.state env)
    (leftType : assertions.type memory.state left)
    (rightType : assertions.type memory.state right)
    (body : assertions.body memory.state program) :
    Yields setting promise
      (do constrain (.subtype env left right); solveIncrementally program) memory
      fun _ after => assertions.state after.state ∧
        assertions.grows memory.state after.state ∧
        ∀ t shape, left = t.shape.refineBottom → right = Shape.refineTop shape →
          assertions.fits after.state shape t
  guard {memory : Memory σ} {env : Environment} (name : String)
    (state : assertions.state memory.state)
    (scope : assertions.scope memory.state env) :
    Yields setting promise (constrain (.wellFormedGuard env (.unknown [] name))) memory
      fun _ after => assertions.state after.state ∧
        assertions.later memory.state after.state ∧
        assertions.scope after.state (env.assume (.unknown [] name)) ∧
        assertions.scope after.state (env.refute (.unknown [] name))
  signature {memory : Memory σ} {outer env : Environment} {name constructorName : String}
    {datatype : Datatype} {scrutinee : RefinedType}
    (state : assertions.state memory.state)
    (outerScope : assertions.scope memory.state outer)
    (listed : (name, datatype) ∈ outer.datatypes.entries)
    (member : constructorName ∈ datatype.constructors)
    (scope : assertions.scope memory.state env)
    (type : assertions.type memory.state scrutinee)
    (known : assertions.scrutinee name datatype scrutinee) :
    Yields setting promise (caseSignature env constructorName scrutinee) memory
      fun signature after => assertions.state after.state ∧
        assertions.later memory.state after.state ∧
        assertions.type after.state signature

end Search

end Inhabit
