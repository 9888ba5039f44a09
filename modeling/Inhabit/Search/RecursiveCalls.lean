import Inhabit.Search.Bodies

/-! Goals, and the recursive calls that the body of a function may make.

A recursive call takes fresh formal arguments, and the type of one of them says
that it is smaller than the argument that the function itself was given. -/

namespace Inhabit

/-- The types of an argument that is smaller than, and of one that is as large as
the argument `name` of type `t`, if `t` has a well-founded order: that of the
numbers from zero on, or that of the metric of a datatype. -/
def Environment.decreasing (env : Environment) (name : String) :
    (t : RefinedType) → Option (RefinedType × RefinedType)
  | .scalar .int arguments refinement =>
      let value := Formula.value .int
      let caller := Formula.var .int name
      some (
        .scalar .int arguments
          ((refinement.and (value.atLeast (.int 0))).and (value.lessThan caller)),
        .scalar .int arguments (refinement.and (value.equals caller)))
  | .scalar (.data datatype) arguments refinement => do
      let metric ← env.metric? datatype
      let value := Formula.measure .int metric (.value (.data datatype))
      let caller := Formula.measure .int metric (.var (.data datatype) name)
      return (
        .scalar (.data datatype) arguments (refinement.and (value.lessThan caller)),
        .scalar (.data datatype) arguments (refinement.and (value.equals caller)))
  | _ => none

def recursiveCallsWithin (env : Environment) (strategy : FixpointStrategy) :
    (count : Nat) → RefinedType → Naming (List (String × RefinedType))
  | count + 1, .function name argument result => do
      let formal ← freshName Stem.argument
      let result := RefinedType.renameVar result name formal argument
      let later ← recursiveCallsWithin env strategy count result
      let keeping (argument : RefinedType) := later.map fun call =>
        (call.1, Skeleton.function formal argument call.2)
      match env.decreasing name argument with
      | none => return keeping argument
      | some (smaller, equal) =>
          let call ← freshName Stem.recursiveCall
          -- The arguments after this one keep their names.
          let here := (call, Skeleton.function formal smaller result)
          match strategy with
          | .disabled => return []
          | .firstArgument => return [here]
          | .allArguments => return here :: keeping equal
  | _, _ => return []

def recursiveCalls (env : Environment) (strategy : FixpointStrategy)
    (t : RefinedType) : Naming (List (String × RefinedType)) :=
  recursiveCallsWithin env strategy t.arity t

/-- The scope of the body of a function of type `t`, with its recursive calls, and
their names. Calls at other types are schemas over the type variables in scope. -/
def recursiveScope (env : Environment) (parameters : Parameters) (t : RefinedType) :
    Naming (Environment × List String) := do
  let calls ← recursiveCalls env parameters.fixpoints t
  let typeVars := if parameters.polymorphicRecursion then env.boundTypeVars else []
  let scope := calls.foldl
    (fun env call => env.addSymbol call.1 (.generalize typeVars call.2)) env
  return (scope, calls.map Prod.fst)

namespace Search

def searchGoal (depth : Depth) (env : Environment) (schema : Schema)
    (found : Sink σ) : Search σ Program :=
  match schema with
  | .forAll name body => searchGoal depth (env.addTypeVar name) body found
  | .mono type => do
      if type.isFunction then
        let (scope, calls) ← naming (recursiveScope env (← read).parameters type)
        searchBody depth scope type fun body =>
          found (if calls.isEmpty then body else .fix calls body body.type)
      else searchBody depth env type found

end Search

end Inhabit
