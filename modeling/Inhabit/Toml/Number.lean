import Inhabit.Toml.Token

/-! Numbers in a TOML document. -/

namespace Inhabit.Toml

/-- Digits and what follows them. Single underscores may stand between digits,
and nowhere else. -/
def moreDigits (radix : Nat) : List Char → Option (List Nat × List Char)
  | [] => some ([], [])
  | '_' :: [] => none
  | '_' :: c :: rest => do
      let digit ← digit? radix c
      let (digits, rest) ← moreDigits radix rest
      return (digit :: digits, rest)
  | c :: rest =>
      match digit? radix c with
      | none => some ([], c :: rest)
      | some digit => do
          let (digits, rest) ← moreDigits radix rest
          return (digit :: digits, rest)

def digits? (radix : Nat) : List Char → Option (List Nat × List Char)
  | [] => none
  | c :: rest => do
      let digit ← digit? radix c
      let (digits, rest) ← moreDigits radix rest
      return (digit :: digits, rest)

example : digits? 10 "1_20e3".toList = some ([1, 2, 0], ['e', '3']) := by decide

example : digits? 10 "1__2".toList = none ∧ digits? 10 "12_".toList = none := by decide

def ofDigits (radix : Nat) (digits : List Nat) : Nat :=
  digits.foldl (radix * · + ·) 0

def splitSign : List Char → Bool × List Char
  | '-' :: rest => (true, rest)
  | characters => (false, characters)

def signed (negative : Bool) (value : Nat) : Int :=
  if negative then - value else value

/-- A decimal number may have a sign, and starts with a zero only if that is its
only digit. -/
def decimal? (characters : List Char) : Option (Bool × List Nat × List Char) := do
  let (negative, rest) := splitSign characters
  let (digits, rest) ← digits? 10 rest
  if digits.head? = some 0 ∧ 1 < digits.length then none
  else return (negative, digits, rest)

def bounded? (value : Int) : Option Int :=
  if Int64.minValue.toInt ≤ value ∧ value ≤ Int64.maxValue.toInt then some value else none

/-- An integer, in a base other than ten with a sign for the base in front. -/
def integer? : List Char → Option Int
  | '0' :: 'x' :: rest => natural 16 rest
  | '0' :: 'o' :: rest => natural 8 rest
  | '0' :: 'b' :: rest => natural 2 rest
  | characters => do
      let (negative, digits, rest) ← decimal? characters
      if rest.isEmpty then bounded? (signed negative (ofDigits 10 digits)) else none
where
  natural (radix : Nat) (characters : List Char) : Option Int := do
    let (digits, rest) ← digits? radix characters
    if rest.isEmpty then bounded? (ofDigits radix digits) else none

example : integer? "-1_000".toList = some (-1000) ∧ integer? "007".toList = none := by
  decide

example : integer? "0x1F".toList = some 31 ∧ integer? "-0x1F".toList = none := by decide

/-- Whether a number in scientific form rounds to one that has 64 bits: it is
then below the midpoint of the largest of these and the power of two after it. -/
def isFinite (digits : List Nat) (exponent : Int) : Bool :=
  let value := ofDigits 10 digits
  let places := (Nat.toDigits 10 value).length
  value == 0 || places + exponent ≤ 308 ||
    (places + exponent ≤ 310 &&
      value * Nat.pow 10 exponent.toNat <
        (Nat.pow 2 1024 - Nat.pow 2 970) * Nat.pow 10 (-exponent).toNat)

example : isFinite [1] 308 ∧ ¬ isFinite [1] 309 := by decide +kernel

end Inhabit.Toml
