import Inhabit.Toml.Number

/-! Values and keys in a TOML document, read from its tokens. A reader returns
what it read and the tokens that follow. -/

namespace Inhabit.Toml

inductive Value where
  | text (content : String)
  | truth (content : Bool)
  | integer (content : Int)
  /-- A number with a fraction or an exponent, or one of the named ones. Only
  its presence is recorded. -/
  | real
  /-- A date, a time, or both. Only its presence is recorded. -/
  | moment
  | array (items : List Value)
  /-- A table in braces. -/
  | inline (entries : List (String × Value))
  /-- A table that came to be by a dotted key. -/
  | dotted (entries : List (String × Value))
  deriving Repr, Inhabited

abbrev Table := List (String × Value)

abbrev Reader (α : Type) := List Token → Option (α × List Token)

/-! Tables -/

def Table.setFirst (key : String) (value : Value) : Table → Table
  | [] => []
  | entry :: rest =>
      if entry.1 = key then (key, value) :: rest else entry :: setFirst key value rest

/-- Enter a value under a dotted key. All but the last part of the key must be
free, or be tables that came to be in this way. -/
def Table.enter? (value : Value) : String → List String → Table → Option Table
  | key, [], table => some (table ++ [(key, value)])
  | key, next :: path, table =>
      match table.lookup key with
      | none => do
          let entries ← enter? value next path []
          return table ++ [(key, .dotted entries)]
      | some (.dotted entries) => do
          let entries ← enter? value next path entries
          return Table.setFirst key (.dotted entries) table
      | some _ => none

/-! Keys -/

def skipBlank : List Token → List Token
  | .blank _ :: rest => rest
  | tokens => tokens

theorem length_skipBlank_le (tokens : List Token) :
    (skipBlank tokens).length ≤ tokens.length := by
  unfold skipBlank
  split <;> simp

def Token.key? : Token → Option String
  | .bare text => some text
  | .quoted false text => some text
  | _ => none

def key : List Token → Option ((String × List String) × List Token)
  | [] => none
  | token :: rest => do
      let part ← token.key?
      match _h : skipBlank rest with
      | .period :: more =>
          let ((next, path), rest) ← key (skipBlank more)
          return ((part, next :: path), rest)
      | rest => return ((part, []), rest)
termination_by tokens => tokens.length
decreasing_by
  have shorter := length_skipBlank_le rest
  have more_le := length_skipBlank_le more
  simp_all only [List.length_cons]
  omega

/-! Numbers, dates and times -/

def clock : Reader Value
  | .bare _ :: .colon :: .bare _ :: rest =>
      (part .period rest).bind (part .plus) |>.bind (part .colon) |>.map (.moment, ·)
  | _ => none
where
  /-- A mark must have something after it. -/
  part (mark : Token) : List Token → Option (List Token)
    | token :: rest =>
        if token = mark then
          match rest with
          | .bare _ :: rest => some rest
          | _ => none
        else some (token :: rest)
    | [] => some []

/-- A time may follow its date after a single space. -/
def skipHour : List Token → List Token
  | .blank text :: .bare hour :: rest =>
      if text = " " then rest else .blank text :: .bare hour :: rest
  | tokens => tokens

def date : Reader Value := fun tokens =>
  match skipHour tokens with
  | .colon :: rest => clock rest
  | rest => some (.moment, rest)

def isDate (word : List Char) : Bool :=
  word.any (fun c => c == 'T' || c == 't') ||
    (word.drop 1).contains '-' && !(isPart ['e', '-'] word || isPart ['E', '-'] word)
where
  isPart (part : List Char) : List Char → Bool
    | [] => part.isEmpty
    | c :: rest => part.isPrefixOf (c :: rest) || isPart part rest

/-- What follows the digits of a number in scientific form. An exponent may be
a token of its own, after a plus sign. -/
def exponent (suffix : List Char) : Reader Int := fun tokens =>
  match suffix with
  | [] => some (0, tokens)
  | c :: suffix =>
      if c ≠ 'e' ∧ c ≠ 'E' then none
      else if suffix.isEmpty then
        match tokens with
        | .plus :: .bare word :: rest | .bare word :: rest =>
            complete false word.toList rest
        | _ => none
      else
        let (negative, suffix) := splitSign suffix
        complete negative suffix tokens
where
  complete (negative : Bool) (characters : List Char) : Reader Int := fun tokens => do
    let (digits, rest) ← digits? 10 characters
    if rest.isEmpty then return (signed negative (ofDigits 10 digits), tokens) else none

def real (word : List Char) (fraction : Option (List Char)) : Reader Value :=
  fun tokens => do
    let (_, whole, suffix) ← decimal? word
    let (places, suffix) ←
      match fraction with
      | none => some ([], suffix)
      | some fraction => if suffix.isEmpty then digits? 10 fraction else none
    let (exponent, rest) ← exponent suffix tokens
    if isFinite (whole ++ places) (exponent - places.length) then return (.real, rest)
    else none

def namedReals : List String := ["inf", "-inf", "nan", "-nan"]

def number (word : String) : Reader Value := fun tokens =>
  let characters := word.toList
  let hasBase := (characters.head? == some '0') &&
    (characters.tail.head?.any fun c => c == 'x' || c == 'o' || c == 'b')
  if !hasBase && characters.any (fun c => c == 'e' || c == 'E') then
    real characters none tokens
  else
    match hasBase, tokens with
    | false, .period :: .bare fraction :: rest =>
        real characters (some fraction.toList) rest
    | false, .period :: _ => none
    | _, _ =>
        if namedReals.contains word then some (.real, tokens)
        else (integer? characters).map fun n => (.integer n, tokens)

def plain (word : String) : Reader Value := fun tokens =>
  let starts := word.toList.head?.any fun c => c == '-' || c.isDigit
  if !(starts || namedReals.contains word) then none
  else if isDate word.toList then date tokens
  else
    match tokens with
    | .colon :: rest => clock (skipHour rest)
    | tokens => number word tokens

/-! Values -/

/-- Within an array, blanks, line breaks and comments do not count. -/
def skipLines : List Token → List Token
  | .blank _ :: rest | .newline :: rest | .comment :: rest => skipLines rest
  | tokens => tokens

mutual

def value : Nat → Reader Value
  | 0, _ => none
  | fuel + 1, tokens =>
      match tokens with
      | .quoted _ content :: rest => some (.text content, rest)
      | .plus :: .bare word :: rest => number word rest
      | .bare word :: rest =>
          if word = "true" then some (.truth true, rest)
          else if word = "false" then some (.truth false, rest)
          else plain word rest
      | .openBracket :: rest => do
          let (items, rest) ← items fuel (skipLines rest)
          return (.array items, rest)
      | .openBrace :: rest =>
          match skipBlank rest with
          | .closeBrace :: rest => some (.inline [], rest)
          | rest => do
              let (entries, rest) ← entries fuel [] rest
              return (.inline entries, rest)
      | _ => none

def items : Nat → Reader (List Value)
  | 0, _ => none
  | fuel + 1, tokens =>
      match tokens with
      | .closeBracket :: rest => some ([], rest)
      | tokens => do
          let (item, rest) ← value fuel tokens
          match skipLines rest with
          | .comma :: rest =>
              let (others, rest) ← items fuel (skipLines rest)
              return (item :: others, rest)
          | .closeBracket :: rest => return ([item], rest)
          | _ => none

def entries : Nat → Table → Reader Table
  | 0, _, _ => none
  | fuel + 1, table, tokens => do
      let ((name, path), rest) ← key tokens
      match rest with
      | .equals :: rest =>
          let (content, rest) ← value fuel (skipBlank rest)
          let table ← table.enter? content name path
          match skipBlank rest with
          | .closeBrace :: rest => return (table, rest)
          | .comma :: rest => entries fuel table (skipBlank rest)
          | _ => none
      | _ => none

end

/-- Levels that suffice for a value of so many tokens: each level of nesting has
a token of its own, and each item of a list another. -/
def levels (tokens : List Token) : Nat := 2 * tokens.length + 2

end Inhabit.Toml
