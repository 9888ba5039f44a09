/-! Tokens of a TOML document. Characters are read one by one, by a machine whose
state says within what the next character stands. -/

namespace Inhabit.Toml

inductive Token where
  | newline
  /-- A run of spaces and tabs. -/
  | blank (text : String)
  | comment
  | equals
  | period
  | comma
  | colon
  | plus
  | openBrace
  | closeBrace
  | openBracket
  | closeBracket
  /-- A run of letters, digits, underscores and hyphens. -/
  | bare (text : String)
  | quoted (multiline : Bool) (text : String)
  deriving DecidableEq, Repr, Inhabited

inductive Quotation where
  | escaped
  | literal
  deriving DecidableEq, Repr, Inhabited

def Quotation.mark : Quotation → Char
  | .escaped => '"'
  | .literal => '\''

/-- Within what the next character stands. Texts are kept in reverse. -/
inductive Mode where
  | outside
  | blank (text : List Char)
  | comment
  | bare (text : List Char)
  /-- After a single mark. -/
  | opened (quotation : Quotation)
  /-- After two marks: an empty quotation, or one of several lines. -/
  | openedTwice (quotation : Quotation)
  /-- After three marks, where a line break does not count. -/
  | openedThrice (quotation : Quotation)
  | inside (quotation : Quotation) (multiline : Bool) (text : List Char)
  /-- After so many marks in a row within a quotation of several lines. -/
  | closing (quotation : Quotation) (marks : Nat) (text : List Char)
  | escape (multiline : Bool) (text : List Char)
  /-- So many digits before the end of a code point, and its value up to here. -/
  | codePoint (multiline : Bool) (text : List Char) (left value : Nat)
  /-- Within the blanks between an escaping backslash and the line break. -/
  | beforeBreak (text : List Char)
  /-- Within the blanks and line breaks after an escaped line break. -/
  | afterBreak (text : List Char)
  deriving DecidableEq, Repr, Inhabited

/-- The tokens that a character ends, and what the next one stands in; nothing
if the character may not stand there. -/
abbrev Step := Option (List Token × Mode)

namespace Lexer

def isBlank (c : Char) : Bool := c == ' ' || c == '\t'

def isBare (c : Char) : Bool := c.isAlphanum || c == '-' || c == '_'

def isText (c : Char) : Bool := c == '\t' || (' ' ≤ c && c != '\x7f')

def goOn (mode : Mode) : Step := some ([], mode)

def emit (token : Token) : Step := some ([token], .outside)

def after (token : Token) (step : Step) : Step :=
  step.map fun (tokens, mode) => (token :: tokens, mode)

def outside (c : Char) : Step :=
  match c with
  | '\n' => emit .newline
  | '#' => goOn .comment
  | '=' => emit .equals
  | '.' => emit .period
  | ',' => emit .comma
  | ':' => emit .colon
  | '+' => emit .plus
  | '{' => emit .openBrace
  | '}' => emit .closeBrace
  | '[' => emit .openBracket
  | ']' => emit .closeBracket
  | '"' => goOn (.opened .escaped)
  | '\'' => goOn (.opened .literal)
  | c =>
      if isBlank c then goOn (.blank [c])
      else if isBare c then goOn (.bare [c])
      else none

def ofReversed (token : String → Token) (text : List Char) : Token :=
  token (String.ofList text.reverse)

def inside (quotation : Quotation) (multiline : Bool) (text : List Char)
    (c : Char) : Step :=
  if c = '\n' then
    if multiline then goOn (.inside quotation multiline (c :: text)) else none
  else if c = quotation.mark then
    if multiline then goOn (.closing quotation 1 text)
    else emit (ofReversed (.quoted false) text)
  else if quotation = .escaped ∧ c = '\\' then goOn (.escape multiline text)
  else if isText c then goOn (.inside quotation multiline (c :: text))
  else none

def withMarks (quotation : Quotation) (count : Nat) (text : List Char) : List Char :=
  List.replicate count quotation.mark ++ text

/-- Three marks end a quotation of several lines. Up to two marks before them
belong to the text. -/
def closing (quotation : Quotation) (marks : Nat) (text : List Char) (c : Char) : Step :=
  if c = quotation.mark then
    if marks < 4 then goOn (.closing quotation (marks + 1) text)
    else emit (ofReversed (.quoted true) (withMarks quotation 2 text))
  else if marks < 3 then inside quotation true (withMarks quotation marks text) c
  else after (ofReversed (.quoted true) (withMarks quotation (marks - 3) text)) (outside c)

def escape (multiline : Bool) (text : List Char) (c : Char) : Step :=
  let character (c : Char) : Step := goOn (.inside .escaped multiline (c :: text))
  match c with
  | '"' => character '"'
  | '\\' => character '\\'
  | 'b' => character '\x08'
  | 'f' => character '\x0c'
  | 'n' => character '\n'
  | 'r' => character '\r'
  | 't' => character '\t'
  | 'u' => goOn (.codePoint multiline text 4 0)
  | 'U' => goOn (.codePoint multiline text 8 0)
  | c =>
      if multiline && isBlank c then goOn (.beforeBreak text)
      else if multiline && c == '\n' then goOn (.afterBreak text)
      else none

end Lexer

def digit? (radix : Nat) (c : Char) : Option Nat :=
  let value :=
    if c.isDigit then c.toNat - '0'.toNat
    else if c.isLower then c.toNat - 'a'.toNat + 10
    else if c.isUpper then c.toNat - 'A'.toNat + 10
    else radix
  if value < radix then some value else none

example : digit? 16 'F' = some 15 ∧ digit? 8 '8' = none ∧ digit? 10 '_' = none := by
  decide

namespace Lexer

def codePoint (multiline : Bool) (text : List Char) (left value : Nat) (c : Char) : Step :=
  match digit? 16 c with
  | none => none
  | some digit =>
      let value := 16 * value + digit
      if 1 < left then goOn (.codePoint multiline text (left - 1) value)
      else if value.isValidChar then
        goOn (.inside .escaped multiline (Char.ofNat value :: text))
      else none

def step : Mode → Char → Step
  | .outside, c => outside c
  | .blank text, c =>
      if isBlank c then goOn (.blank (c :: text))
      else after (ofReversed .blank text) (outside c)
  | .comment, c =>
      if c = '\t' ∨ ' ' ≤ c then goOn .comment else after .comment (outside c)
  | .bare text, c =>
      if isBare c then goOn (.bare (c :: text))
      else after (ofReversed .bare text) (outside c)
  | .opened quotation, c =>
      if c = quotation.mark then goOn (.openedTwice quotation)
      else inside quotation false [] c
  | .openedTwice quotation, c =>
      if c = quotation.mark then goOn (.openedThrice quotation)
      else after (.quoted false "") (outside c)
  | .openedThrice quotation, c =>
      if c = '\n' then goOn (.inside quotation true []) else inside quotation true [] c
  | .inside quotation multiline text, c => inside quotation multiline text c
  | .closing quotation marks text, c => closing quotation marks text c
  | .escape multiline text, c => escape multiline text c
  | .codePoint multiline text left value, c => codePoint multiline text left value c
  | .beforeBreak text, c =>
      if isBlank c then goOn (.beforeBreak text)
      else if c = '\n' then goOn (.afterBreak text)
      else none
  | .afterBreak text, c =>
      if isBlank c ∨ c = '\n' then goOn (.afterBreak text)
      else inside .escaped true text c

def finish : Mode → Option (List Token)
  | .outside => some []
  | .blank text => some [ofReversed .blank text]
  | .comment => some [.comment]
  | .bare text => some [ofReversed .bare text]
  | .openedTwice _ => some [.quoted false ""]
  | .closing quotation marks text =>
      if marks < 3 then none
      else some [ofReversed (.quoted true) (withMarks quotation (marks - 3) text)]
  | _ => none

def run : Mode → List Char → Option (List Token)
  | mode, [] => finish mode
  | mode, c :: rest => do
      let (tokens, mode) ← step mode c
      return tokens ++ (← run mode rest)

/-- A carriage return before a line break is a part of it. -/
def joinBreaks : List Char → List Char
  | '\r' :: '\n' :: rest => '\n' :: joinBreaks rest
  | c :: rest => c :: joinBreaks rest
  | [] => []

def dropMark : List Char → List Char
  | '\ufeff' :: rest => rest
  | characters => characters

end Lexer

def tokens? (document : String) : Option (List Token) :=
  Lexer.run .outside (Lexer.joinBreaks (Lexer.dropMark document.toList))

example : tokens? "a.b = 'c' # d" =
    some [.bare "a", .period, .bare "b", .blank " ", .equals, .blank " ",
      .quoted false "c", .blank " ", .comment] := by
  decide

end Inhabit.Toml
