import Inhabit.Program.Printer
import Inhabit.Proofs.Unknowns.Programs

/-! The words of the text of a program.

A text is cut at blanks, at parentheses and at the backslash of a function. Names that have
none of these in them, and are no reserved words, are read as they were written. -/

namespace Inhabit

namespace Printing

inductive Token where
  | name (name : String)
  | lambda
  | fixWord
  | ifWord
  | thenWord
  | elseWord
  | matchWord
  | withWord
  | dot
  | bar
  | arrow
  | opening
  | closing
  deriving DecidableEq, Repr

def reserved : List (String × Token) :=
  [("fix", .fixWord), ("if", .ifWord), ("then", .thenWord), ("else", .elseWord),
    ("match", .matchWord), ("with", .withWord), (".", .dot), ("|", .bar), ("->", .arrow)]

/-- The characters that end a word, with what they say themselves. -/
def separators : List (Char × List Token) :=
  [(' ', []), ('(', [.opening]), (')', [.closing]), ('\\', [.lambda])]

def Token.ofWord (word : String) : Token :=
  (reserved.lookup word).getD (.name word)

def wordTokens : List Char → List Token
  | [] => []
  | word => [Token.ofWord (String.ofList word)]

/-- The tokens of a text that is read on after the beginning of a word. -/
def lex (word : List Char) : List Char → List Token
  | [] => wordTokens word
  | character :: rest =>
      match separators.lookup character with
      | some tokens => wordTokens word ++ (tokens ++ lex [] rest)
      | none => lex (word ++ [character]) rest

/-- A name that is read as it is written: no separator is in it, and it is not reserved. -/
structure IsName (name : String) : Prop where
  nonempty : name ≠ ""
  unbroken : ∀ character ∈ name.toList, separators.lookup character = none
  unreserved : reserved.lookup name = none

instance (name : String) : Decidable (IsName name) :=
  decidable_of_iff
    ((name != "" && name.toList.all fun character => (separators.lookup character).isNone) &&
      (reserved.lookup name).isNone)
    (by
      simp only [Bool.and_eq_true, bne_iff_ne, List.all_eq_true, Option.isNone_iff_eq_none]
      exact ⟨fun ⟨⟨first, second⟩, third⟩ => ⟨first, second, third⟩,
        fun ⟨first, second, third⟩ => ⟨⟨first, second⟩, third⟩⟩)

def keywords : List String :=
  ["fix", "if", "then", "else", "match", "with"]

def isLetter (character : Char) : Bool :=
  character.isAlphanum || character == '_'

theorem isName_of_letters {name : String} (nonempty : name ≠ "")
    (letters : ∀ character ∈ name.toList, isLetter character) (unreserved : name ∉ keywords) :
    IsName name := by
  have separators_apart : separators.all fun entry => !isLetter entry.1 := rfl
  have reserved_apart : reserved.all fun entry =>
    keywords.contains entry.1 || entry.1.toList.any fun character => !isLetter character := rfl
  simp only [List.all_eq_true, Bool.or_eq_true, List.contains_iff_mem, List.any_eq_true,
    Bool.not_eq_true'] at separators_apart reserved_apart
  constructor
  · exact nonempty
  · intro character member
    rw [List.lookup_eq_none_iff]
    intro entry listed
    rw [bne_iff_ne]
    rintro rfl
    exact absurd (letters _ member) (by simp [separators_apart entry listed])
  · rw [List.lookup_eq_none_iff]
    intro entry listed
    rw [bne_iff_ne]
    rintro rfl
    rcases reserved_apart entry listed with keyword | ⟨character, member, sign⟩
    · exact unreserved keyword
    · exact absurd (letters character member) (by simp [sign])

/-! ## Reading parts of a text -/

def Breaks (rest : List Char) : Prop :=
  ∀ word, lex word rest = wordTokens word ++ lex [] rest

def Reads (text : String) (tokens : List Token) : Prop :=
  ∀ rest, Breaks rest → lex [] (text.toList ++ rest) = tokens ++ lex [] rest

def ReadsOn (text : String) (tokens : List Token) : Prop :=
  ∀ rest, lex [] (text.toList ++ rest) = tokens ++ lex [] rest

/-- The text ends a word before it, and has its tokens whatever comes after it. -/
structure Separates (text : String) (tokens : List Token) : Prop where
  breaks : ∀ rest, Breaks (text.toList ++ rest)
  readsOn : ReadsOn text tokens

theorem breaks_nil : Breaks [] :=
  fun word => (List.append_nil (wordTokens word)).symm

theorem breaks_cons {character : Char} {tokens : List Token} {rest : List Char}
    (separator : separators.lookup character = some tokens) : Breaks (character :: rest) := by
  intro word
  simp only [lex, separator, wordTokens, List.nil_append]

variable {first second separator : String} {left right middle : List Token}

theorem ReadsOn.reads (reads : ReadsOn first left) : Reads first left :=
  fun rest _ => reads rest

theorem ReadsOn.append (here : ReadsOn first left) (after : Reads second right) :
    Reads (first ++ second) (left ++ right) := by
  intro rest breaks
  rw [String.toList_append, List.append_assoc, here, after rest breaks, List.append_assoc]

theorem Reads.separate (here : Reads first left) (after : Separates second right) :
    ReadsOn (first ++ second) (left ++ right) := by
  intro rest
  rw [String.toList_append, List.append_assoc, here _ (after.breaks rest), after.readsOn,
    List.append_assoc]

theorem lex_append {word text rest : List Char}
    (unbroken : ∀ character ∈ text, separators.lookup character = none) :
    lex word (text ++ rest) = lex (word ++ text) rest := by
  induction text generalizing word with
  | nil => rw [List.nil_append, List.append_nil]
  | cons character text induction =>
      rw [List.forall_mem_cons] at unbroken
      simp only [List.cons_append, lex, unbroken.1]
      rw [induction unbroken.2, List.append_assoc, List.singleton_append]

theorem IsName.reads {name : String} (isName : IsName name) : Reads name [.name name] := by
  intro rest breaks
  rw [lex_append isName.unbroken, List.nil_append, breaks]
  congr 1
  cases letters : name.toList with
  | nil => exact absurd (String.toList_inj.mp letters) isName.nonempty
  | cons character word =>
      rw [wordTokens, ← letters, String.ofList_toList, Token.ofWord, isName.unreserved]
      · rfl
      · simp

theorem reads_intercalate {ι : Type} {items : List ι} {text : ι → String}
    {tokens : ι → List Token} (between : Separates separator middle)
    (each : ∀ item ∈ items, Reads (text item) (tokens item)) :
    Reads (separator.intercalate (items.map text)) (middle.intercalate (items.map tokens)) := by
  induction items with
  | nil => exact fun rest _ => rfl
  | cons item rest induction =>
      rw [List.forall_mem_cons] at each
      cases rest with
      | nil => simpa using each.1
      | cons next rest =>
          simp only [List.map_cons, String.intercalate_cons_cons, List.intercalate_cons_cons]
          exact (each.1.separate between).append (induction each.2)

theorem reads_names {names : List String} (areNames : ∀ name ∈ names, IsName name) :
    Reads (" ".intercalate names) (names.map .name) := by
  have singletons : ∀ names : List String,
      [].intercalate (names.map fun name => [Token.name name]) = names.map .name := by
    intro names
    induction names with
    | nil => rfl
    | cons name rest induction => cases rest <;> simp_all
  have blank : Separates " " [] := ⟨fun rest => breaks_cons rfl, fun rest => rfl⟩
  have reads := reads_intercalate blank fun name member => (areNames name member).reads
  rwa [List.map_id', singletons] at reads

end Printing

namespace Program

open Printing

mutual

/-- The names of the program are read as they are written, and its guards are true. -/
def IsPlain : Program → Prop
  | .symbol name _ => IsName name
  | .app function argument _ => IsPlain function ∧ IsPlain argument
  | .lambda parameter body _ => IsName parameter ∧ IsPlain body
  | .fix names body _ => (∀ name ∈ names, IsName name) ∧ IsPlain body
  | .ite guard thenBranch elseBranch _ =>
      guard = .top ∧ IsPlain thenBranch ∧ IsPlain elseBranch
  | .caseOf scrutinee cases _ => IsPlain scrutinee ∧ ArePlain cases
termination_by structural program => program

def ArePlain : List (Case Program) → Prop
  | [] => True
  | ⟨constructorName, binders, body⟩ :: rest =>
      ((∀ name ∈ constructorName :: binders, IsName name) ∧ IsPlain body) ∧ ArePlain rest
termination_by structural cases => cases

end

mutual

def tokens : Program → List Token
  | .symbol name _ => [.name name]
  | .app function (.symbol name _) _ => tokens function ++ [.name name]
  | .app function argument _ => tokens function ++ [.opening] ++ tokens argument ++ [.closing]
  | .lambda parameter body _ => [.lambda, .name parameter, .dot] ++ tokens body
  | .fix names body _ => [.fixWord] ++ names.map .name ++ [.dot] ++ tokens body
  | .ite _ thenBranch elseBranch _ =>
      [.ifWord, .name "True", .thenWord] ++ tokens thenBranch ++ [.elseWord] ++
        tokens elseBranch
  | .caseOf scrutinee cases _ =>
      [.matchWord] ++ tokens scrutinee ++ [.withWord] ++ [.bar].intercalate (tokensCases cases)
termination_by structural program => program

def tokensCases : List (Case Program) → List (List Token)
  | [] => []
  | ⟨constructorName, binders, body⟩ :: rest =>
      ((constructorName :: binders).map .name ++ [.arrow] ++ tokens body) :: tokensCases rest
termination_by structural cases => cases

end

theorem arePlain_iff {cases : List (Case Program)} :
    ArePlain cases ↔ ∀ case ∈ cases,
      (∀ name ∈ case.constructorName :: case.binders, IsName name) ∧ case.body.IsPlain := by
  induction cases with
  | nil => exact iff_of_true trivial (List.forall_mem_nil _)
  | cons case rest induction => rw [List.forall_mem_cons, ← induction, ArePlain]

def caseText (case : Case Program) : String :=
  " ".intercalate (case.constructorName :: case.binders) ++ " -> " ++ case.body.render

theorem renderCases_eq_map (cases : List (Case Program)) :
    renderCases cases = cases.map caseText := by
  induction cases with
  | nil => rfl
  | cons case rest induction => rw [renderCases, induction]; rfl

theorem tokensCases_eq_map (cases : List (Case Program)) :
    tokensCases cases = cases.map fun case =>
      (case.constructorName :: case.binders).map .name ++ [.arrow] ++ case.body.tokens := by
  induction cases with
  | nil => rfl
  | cons case rest induction => rw [tokensCases, induction]; rfl

theorem exists_of_isSymbol {program : Program} (isSymbol : program.isSymbol = true) :
    ∃ name type, program = symbol name type := by
  cases program with
  | symbol name type => exact ⟨name, type, rfl⟩
  | _ => cases isSymbol

theorem render_app_of_not_symbol {function argument : Program} {type : RefinedType}
    (compound : argument.isSymbol = false) :
    (app function argument type).render = function.render ++ " (" ++ argument.render ++ ")" := by
  cases argument with
  | symbol => cases compound
  | _ => rfl

theorem tokens_app_of_not_symbol {function argument : Program} {type : RefinedType}
    (compound : argument.isSymbol = false) :
    (app function argument type).tokens =
      function.tokens ++ [.opening] ++ argument.tokens ++ [.closing] := by
  cases argument with
  | symbol => cases compound
  | _ => rfl

theorem IsPlain.reads {program : Program} (plain : program.IsPlain) :
    Reads program.render program.tokens := by
  induction program using Program.induction with
  | symbol name type => exact IsName.reads plain
  | app function argument type first second =>
      -- Only a compound argument is in parentheses.
      cases compound : argument.isSymbol with
      | true =>
          have blank : Separates " " [] := ⟨fun rest => breaks_cons rfl, fun rest => rfl⟩
          rcases exists_of_isSymbol compound with ⟨name, symbolType, rfl⟩
          simpa [render, tokens] using ((first plain.1).separate blank).append (second plain.2)
      | false =>
          have opening : Separates " (" [.opening] := ⟨fun rest => breaks_cons rfl, fun rest => rfl⟩
          have closing : Separates ")" [.closing] := ⟨fun rest => breaks_cons rfl, fun rest => rfl⟩
          rw [render_app_of_not_symbol compound, tokens_app_of_not_symbol compound]
          have inside := ((first plain.1).separate opening).append (second plain.2)
          exact (inside.separate closing).reads
  | lambda parameter body type induction =>
      have start : ReadsOn "\\" [.lambda] := fun rest => rfl
      have dot : Separates " . " [.dot] := ⟨fun rest => breaks_cons rfl, fun rest => rfl⟩
      exact ((start.append plain.1.reads).separate dot).append (induction plain.2)
  | fix names body type induction =>
      have start : ReadsOn "fix " [.fixWord] := fun rest => rfl
      have dot : Separates " . " [.dot] := ⟨fun rest => breaks_cons rfl, fun rest => rfl⟩
      rw [render, tokens]
      exact ((start.append (reads_names plain.1)).separate dot).append (induction plain.2)
  | ite guard thenBranch elseBranch type first second =>
      have start : ReadsOn "if True then " [.ifWord, .name "True", .thenWord] := fun rest => rfl
      have between : Separates " else " [.elseWord] :=
        ⟨fun rest => breaks_cons rfl, fun rest => rfl⟩
      rw [render, tokens, plain.1]
      exact ((start.append (first plain.2.1)).separate between).append (second plain.2.2)
  | caseOf scrutinee cases type subject each =>
      have start : ReadsOn "match " [.matchWord] := fun rest => rfl
      have between : Separates " with " [.withWord] :=
        ⟨fun rest => breaks_cons rfl, fun rest => rfl⟩
      have bar : Separates " | " [.bar] := ⟨fun rest => breaks_cons rfl, fun rest => rfl⟩
      have arrow : Separates " -> " [.arrow] := ⟨fun rest => breaks_cons rfl, fun rest => rfl⟩
      rw [render, tokens, renderCases_eq_map, tokensCases_eq_map]
      apply ((start.append (subject plain.1)).separate between).append
      apply reads_intercalate bar
      intro case member
      have casePlain := arePlain_iff.mp plain.2 case member
      exact ((reads_names casePlain.1).separate arrow).append (each case member casePlain.2)

theorem tokens_eq_of_render_eq {p q : Program} (plain : p.IsPlain) (other : q.IsPlain)
    (same : p.render = q.render) : p.tokens = q.tokens := by
  have first := plain.reads [] breaks_nil
  have second := other.reads [] breaks_nil
  rw [same] at first
  simpa using first.symm.trans second

end Program

end Inhabit
