import Inhabit.Parameters
import Inhabit.Toml.Document

/-! Parameters of a search in a settings file. -/

namespace Inhabit

namespace FixpointStrategy

def name : FixpointStrategy → String
  | .disabled => "disable-fixpoint"
  | .firstArgument => "first-argument"
  | .allArguments => "all-arguments"

def all : List FixpointStrategy := [.disabled, .firstArgument, .allArguments]

def ofName? (name : String) : Option FixpointStrategy :=
  all.find? (·.name = name)

@[simp] theorem ofName?_name (strategy : FixpointStrategy) :
    ofName? strategy.name = some strategy := by
  cases strategy <;> decide

end FixpointStrategy

namespace Parameters

open Toml (Value Document)

def natural? : Value → Option Nat
  | .integer value => if 0 ≤ value then some value.toNat else none
  | _ => none

def truth? : Value → Option Bool
  | .truth value => some value
  | _ => none

/-- A strategy is written as its name, or as the only name in a table, with
nothing to it. -/
def strategy? : Value → Option FixpointStrategy
  | .text name => FixpointStrategy.ofName? name
  | .inline [(name, .inline [])] => FixpointStrategy.ofName? name
  | _ => none

def keys : List (String × (Parameters → Value → Option Parameters)) :=
  [ ("e_guess_depth", fun parameters value => do
      return { parameters with applicationDepth := ← natural? value }),
    ("scrutinee_depth", fun parameters value => do
      return { parameters with scrutineeDepth := ← natural? value }),
    ("match_depth", fun parameters value => do
      return { parameters with matchDepth := ← natural? value }),
    ("cond_depth", fun parameters value => do
      return { parameters with conditionDepth := ← natural? value }),
    ("fix_strategy", fun parameters value => do
      return { parameters with fixpoints := ← strategy? value }),
    ("poly_recursion", fun parameters value => do
      return { parameters with polymorphicRecursion := ← truth? value }),
    ("incremental_solving", fun parameters value => do
      return { parameters with incremental := ← truth? value }) ]

def isKey (name : String) : Bool := (keys.lookup name).isSome

def set (parameters : Parameters) (name : String) (value : Value) : Option Parameters :=
  match keys.lookup name with
  | some setting => setting parameters value
  | none => some parameters

/-- The parameters in a document. Each key stands at most once, and before any
section; a strategy may also be the header of the only section, with nothing
else in the document. -/
def ofDocument (document : Document) : Option Parameters :=
  let names := (document.root.map Prod.fst).filter isKey
  match document.root, document.sections with
  | [], [⟨"fix_strategy" :: path, _, []⟩] => do
      let strategy ← FixpointStrategy.ofName? (path.getLastD "fix_strategy")
      return { fixpoints := strategy }
  | root, sections =>
      if sections.any (fun part => part.path.head?.any isKey) || !decide names.Nodup then none
      else root.foldlM (fun parameters entry => parameters.set entry.1 entry.2) {}

example : ofDocument ⟨[("match_depth", .integer 0), ("comment", .text "")], []⟩ =
    some { matchDepth := 0 } := by
  decide

def parse? (text : String) : Option Parameters := do
  ofDocument (← Document.parse? text)

inductive Source where
  | nothing
  | directory
  | file (bytes : ByteArray)
  deriving Inhabited

inductive LoadError where
  /-- There is no text there. -/
  | reading (path : String)
  /-- The text is not one of settings. -/
  | parsing (path : String)
  deriving DecidableEq, Repr, Inhabited

def LoadError.message : LoadError → String
  | .reading path => "reading " ++ path
  | .parsing path => "parsing " ++ path

def load (path : String) : Source → Except LoadError Parameters
  | .nothing => .ok {}
  | .directory => .error (.reading path)
  | .file bytes =>
      match String.fromUTF8? bytes with
      | none => .error (.reading path)
      | some text =>
          match parse? text with
          | none => .error (.parsing path)
          | some parameters => .ok parameters

end Parameters

end Inhabit
