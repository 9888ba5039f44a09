import Inhabit.Toml.Value

/-! TOML documents: entries, and then sections with a header each. -/

namespace Inhabit.Toml

structure Section where
  /-- The dotted key in the header. -/
  path : List String
  /-- Whether the section is an element of an array, written with two brackets. -/
  element : Bool
  entries : Table
  deriving Repr, Inhabited

structure Document where
  root : Table
  sections : List Section
  deriving Repr, Inhabited

inductive Line where
  | header (path : List String) (element : Bool)
  | entry (name : String) (path : List String) (value : Value)
  deriving Repr, Inhabited

def endLine : List Token → Option (List Token)
  | [] => some []
  | .newline :: rest => some rest
  | .comment :: rest => endLine rest
  | _ => none

def header (element : Bool) : Reader Line := fun tokens => do
  let ((name, path), rest) ← key (skipBlank tokens)
  let rest ←
    match element, rest with
    | false, .closeBracket :: rest => endLine (skipBlank rest)
    | true, .closeBracket :: .closeBracket :: rest => endLine (skipBlank rest)
    | _, _ => none
  return (.header (name :: path) element, rest)

def entry : Reader Line := fun tokens => do
  let ((name, path), rest) ← key tokens
  match rest with
  | .equals :: rest =>
      let rest := skipBlank rest
      let (content, rest) ← value (levels rest) rest
      let rest ← endLine (skipBlank rest)
      return (.entry name path content, rest)
  | _ => none

def Line.read : Reader Line
  | .openBracket :: .openBracket :: rest => Toml.header true rest
  | .openBracket :: rest => Toml.header false rest
  | tokens => Toml.entry tokens

def lines (fuel : Nat) (tokens : List Token) : Option (List Line) :=
  match skipLines tokens with
  | [] => some []
  | tokens =>
      match fuel with
      | 0 => none
      | fuel + 1 => do
          let (line, rest) ← Line.read tokens
          return line :: (← lines fuel rest)

namespace Document

def gather : List Line → Table → Option Document
  | [], table => some ⟨table, []⟩
  | .entry name path value :: rest, table => do
      gather rest (← table.enter? value name path)
  | .header path element :: rest, table => do
      let ⟨entries, sections⟩ ← gather rest []
      return ⟨table, ⟨path, element, entries⟩ :: sections⟩

abbrev Defined := List (List String × Bool)

/-- Define a section once more. A table is defined once, and an array of tables
before the sections within it. A new element starts afresh with these. -/
def Defined.add? (defined : Defined) (path : List String) (element : Bool) :
    Option Defined :=
  match defined.lookup path with
  | some true =>
      if element then
        some (defined.filter fun other => other.1 = path || !path.isPrefixOf other.1)
      else none
  | some false => none
  | none =>
      if element && defined.any fun other => path.isPrefixOf other.1 then none
      else some ((path, element) :: defined)

def consistent (document : Document) : Bool :=
  (document.sections.foldlM (fun defined part => Defined.add? defined part.path part.element)
    []).isSome

def parse? (text : String) : Option Document := do
  let tokens ← tokens? text
  let document ← gather (← lines tokens.length tokens) []
  if document.consistent then return document else none

example : (parse? "[a]\n[a]").isNone ∧ (parse? "[[a]]\n[[a]]").isSome := by cbv

end Document

end Inhabit.Toml
