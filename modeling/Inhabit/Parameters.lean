/-! Bounds and switches of a search. -/

namespace Inhabit

inductive FixpointStrategy where
  | disabled
  /-- Calls that decrease the first well-founded argument. -/
  | firstArgument
  /-- For every well-founded argument, calls that decrease it and keep those
  before it. -/
  | allArguments
  deriving DecidableEq, Repr, Inhabited

structure Parameters where
  /-- How deep applications nest in a guessed term. -/
  applicationDepth : Nat := 3
  /-- How deep applications nest in a scrutinee. -/
  scrutineeDepth : Nat := 1
  matchDepth : Nat := 2
  conditionDepth : Nat := 1
  fixpoints : FixpointStrategy := .firstArgument
  /-- Whether recursive calls may be at other types. -/
  polymorphicRecursion : Bool := true
  /-- Whether to solve after every constraint, and not only at the end. -/
  incremental : Bool := true
  deriving DecidableEq, Repr, Inhabited

structure Depth where
  application : Nat
  matching : Nat
  conditional : Nat
  deriving DecidableEq, Repr, Inhabited

def Parameters.depth (parameters : Parameters) : Depth where
  application := parameters.applicationDepth
  matching := parameters.matchDepth
  conditional := parameters.conditionDepth

end Inhabit
