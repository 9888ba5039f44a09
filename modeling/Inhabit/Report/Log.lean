import Inhabit.Report.Style

/-! Log records of a search: which of them are written, and as what line. -/

namespace Inhabit.Log

inductive Severity where
  | error
  | warning
  | info
  | debug
  | trace
  deriving DecidableEq, Repr, Inhabited

namespace Severity

def rank : Severity → Nat
  | .error => 1
  | .warning => 2
  | .info => 3
  | .debug => 4
  | .trace => 5

def label : Severity → String
  | .error => "error"
  | .warning => "warn"
  | .info => "info"
  | .debug => "debug"
  | .trace => "trace"

def style : Severity → Style
  | .error => ⟨[31]⟩
  | .warning => ⟨[33]⟩
  | .info => ⟨[34]⟩
  | .debug => ⟨[35]⟩
  | .trace => ⟨[32]⟩

end Severity

/-- Which severities are written: none, or a severity and all graver ones. -/
inductive Threshold where
  | off
  | upTo (severity : Severity)
  deriving DecidableEq, Repr, Inhabited

namespace Threshold

def rank : Threshold → Nat
  | .off => 0
  | .upTo severity => severity.rank

def admits (threshold : Threshold) (severity : Severity) : Bool :=
  severity.rank ≤ threshold.rank

def stricter (first second : Threshold) : Threshold :=
  if first.rank ≤ second.rank then first else second

def looser (first second : Threshold) : Threshold :=
  if first.rank ≤ second.rank then second else first

example : (upTo .warning).admits .error ∧ ¬ (upTo .warning).admits .info := by decide

example (severity : Severity) : off.admits severity = false := by
  cases severity <;> rfl

end Threshold

/-- Thresholds for the decisions of a search and for the work on constraints.
Constraints are worked on at every step, so they are mostly kept quieter. -/
structure Verbosity where
  search : Threshold
  constraints : Threshold
  deriving DecidableEq, Repr, Inhabited

namespace Verbosity

def uniform (threshold : Threshold) : Verbosity := ⟨threshold, threshold⟩

def searchOnly (threshold : Threshold) : Verbosity :=
  ⟨threshold, (Threshold.upTo .warning).stricter threshold⟩

def loosest (verbosity : Verbosity) : Threshold :=
  verbosity.search.looser verbosity.constraints

end Verbosity

structure Topics where
  /-- The beginning of the program's own paths, which lines leave out. -/
  home : String
  search : List String
  constraints : List String
  deriving DecidableEq, Repr, Inhabited

/-- What precedes each pair of colons, the longest first. Paths are read and
returned from their ends. -/
def enclosingReversed : List Char → List (List Char)
  | ':' :: ':' :: path => path :: enclosingReversed path
  | _ :: path => enclosingReversed path
  | [] => []

def enclosing (path : String) : List String :=
  path :: (enclosingReversed path.toList.reverse).map (String.ofList ·.reverse)

/-- A source takes the threshold of the nearest path that has one. -/
def threshold (topics : Topics) (verbosity : Verbosity) (source : String) : Threshold :=
  let known (path : String) : Option Threshold :=
    if topics.search.contains path then some verbosity.search
    else if topics.constraints.contains path then some verbosity.constraints
    else none
  ((enclosing source).findSome? known).getD verbosity.loosest

example :
    threshold ⟨"lib::", [], ["lib::solver"]⟩ (.searchOnly (.upTo .debug))
      "lib::solver::bounded" = .upTo .warning := by
  decide

structure Record where
  source : String
  severity : Severity
  message : String
  deriving DecidableEq, Repr, Inhabited

def concern (topics : Topics) (source : String) : String :=
  if topics.home.toList.isPrefixOf source.toList then
    String.ofList (source.toList.drop topics.home.length)
  else source

def line (topics : Topics) (colors : Bool) (record : Record) : String :=
  Style.paintIf colors record.severity.style (record.severity.label ++ ":") ++
    " [" ++ concern topics record.source ++ "] " ++ record.message

def write? (topics : Topics) (verbosity : Verbosity) (colors : Bool)
    (record : Record) : Option String :=
  if (threshold topics verbosity record.source).admits record.severity then
    some (line topics colors record)
  else none

example :
    write? ⟨"lib::", ["lib::search"], []⟩ (.uniform (.upTo .info)) false
      ⟨"lib::search::terms", .warning, "none left"⟩ =
      some "warn: [search::terms] none left" := by
  decide

end Inhabit.Log
