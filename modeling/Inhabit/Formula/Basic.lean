/-! The refinement logic: sorts, operators, formulas and the constructors that
simplify on the way. -/

namespace Inhabit

/-- The sort of a term. A `data` sort is an uninterpreted datatype; a `var` sort
stands for whatever its type variable is instantiated with. -/
inductive LogicSort where
  | bool
  | int
  | var (name : String)
  | data (name : String)
  deriving DecidableEq, Repr, Inhabited

inductive UnaryOp where
  | neg
  | not
  deriving DecidableEq, Repr, Inhabited

inductive BinaryOp where
  | times
  | plus
  | minus
  | eq
  | neq
  | lt
  | le
  | gt
  | ge
  | and
  | or
  | implies
  | iff
  deriving DecidableEq, Repr, Inhabited

def BinaryOp.isArithmetic : BinaryOp → Bool
  | .times | .plus | .minus => true
  | _ => false

/-- A term of the logic; the terms of sort `bool` are its predicates.

An `unknown` is a predicate still to be found. Its `pending` list renames the
variables of whatever predicate is chosen for it, and is kept in the order of
the variables. A `measure` applies an uninterpreted function. -/
inductive Formula where
  | bool (value : Bool)
  | int (value : Int64)
  | var (sort : LogicSort) (name : String)
  | unknown (pending : List (String × Formula)) (name : String)
  | unary (op : UnaryOp) (operand : Formula)
  | binary (op : BinaryOp) (left right : Formula)
  | ite (condition thenTerm elseTerm : Formula)
  | measure (sort : LogicSort) (name : String) (argument : Formula)
  deriving Repr, Inhabited

/-- The variable a refinement uses for the value it describes. -/
def valueName : String := "_v"

namespace Formula

@[match_pattern, reducible] def top : Formula := .bool true

@[match_pattern, reducible] def bottom : Formula := .bool false

def value (sort : LogicSort) : Formula := .var sort valueName

def isTrue : Formula → Bool
  | .bool b => b
  | _ => false

def isFalse : Formula → Bool
  | .bool b => !b
  | _ => false

def not : Formula → Formula
  | .bool b => .bool (!b)
  | .unary .not operand => operand
  | formula => .unary .not formula

/-- Arithmetic negation. The least integer has no negation of its own and stays
a negated literal. -/
def neg : Formula → Formula
  | .int n => if n = Int64.minValue then .unary .neg (.int n) else .int (-n)
  | formula => .unary .neg formula

def and (left right : Formula) : Formula :=
  if left.isTrue || right.isFalse then right
  else if right.isTrue || left.isFalse then left
  else .binary .and left right

def or (left right : Formula) : Formula :=
  if left.isFalse || right.isTrue then right
  else if right.isFalse || left.isTrue then left
  else .binary .or left right

def implies (left right : Formula) : Formula :=
  if left.isTrue then right
  else if left.isFalse || right.isTrue then top
  else .binary .implies left right

def equals (left right : Formula) : Formula := .binary .eq left right

def lessThan (left right : Formula) : Formula := .binary .lt left right

def atLeast (left right : Formula) : Formula := .binary .ge left right

/-- Apply an operator, simplifying where it is a connective that does so. -/
def combine : BinaryOp → Formula → Formula → Formula
  | .and => and
  | .or => or
  | .implies => implies
  | op => .binary op

def conjunction (formulas : List Formula) : Formula := formulas.foldl and top

def disjunction (formulas : List Formula) : Formula := formulas.foldl or bottom

/-- The sort of the value of a formula. A conditional has the sort of its first
branch. -/
def sort : Formula → LogicSort
  | .bool _ | .unknown _ _ => .bool
  | .int _ => .int
  | .var sort _ | .measure sort _ _ => sort
  | .unary .neg _ => .int
  | .unary .not _ => .bool
  | .binary op _ _ => if op.isArithmetic then .int else .bool
  | .ite _ thenTerm _ => thenTerm.sort

example : not (not (.var .bool "b")) = .var .bool "b" := rfl

example : (Formula.int 5).neg = .int (-5) := rfl

example : conjunction [top, .var .bool "b", top] = .var .bool "b" := rfl

end Formula

end Inhabit
