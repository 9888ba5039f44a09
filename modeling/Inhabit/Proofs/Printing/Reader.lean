import Inhabit.Proofs.Printing.Tokens

/-! How the tokens of a program are read.

What a program begins with is at its left end, so that of the text read up to some place
there is one program that the next argument belongs to, with open parts around it: bodies,
branches and alternatives that end where it ends. An argument goes to the innermost program,
an alternative to the innermost match that has alternatives. -/

namespace Inhabit

namespace Printing

/-- A part of a program that ends where the part within it ends. -/
inductive Edge where
  | lambda (parameter : String)
  | fix (names : List String)
  | elseBranch (thenBranch : Program)
  /-- One more alternative of a match. -/
  | alternative (scrutinee : Program) (before : List (Case Program)) (constructorName : String)
      (binders : List String)

def Edge.close : Edge → Program → Program
  | .lambda parameter, body => .lambda parameter body default
  | .fix names, body => .fix names body default
  | .elseBranch thenBranch, body => .ite .top thenBranch body default
  | .alternative scrutinee before constructorName binders, body =>
      .caseOf scrutinee (before ++ [⟨constructorName, binders, body⟩]) default

def whole : List Edge → Program → Program
  | [], focus => focus
  | edge :: outer, focus => whole outer (edge.close focus)

theorem whole_append (inner outer : List Edge) (focus : Program) :
    whole (inner ++ outer) focus = whole outer (whole inner focus) := by
  induction inner generalizing focus with
  | nil => rfl
  | cons edge inner induction => exact induction _

structure OpenMatch where
  scrutinee : Program
  cases : List (Case Program)
  outer : List Edge

/-- The innermost match that has alternatives. -/
def openMatch : List Edge → Program → Option OpenMatch
  | [], _ => none
  | .alternative scrutinee before constructorName binders :: outer, body =>
      some ⟨scrutinee, before ++ [⟨constructorName, binders, body⟩], outer⟩
  | edge :: outer, body => openMatch outer (edge.close body)

/-! ## The reader -/

inductive Purpose where
  | lambda
  | fix
  | guard
  | pattern (scrutinee : Program) (before : List (Case Program))

inductive Enclosure where
  | argument (function : Program)
  | thenBranch
  | scrutinee

inductive Current where
  | start
  | program (focus : Program)
  | names (purpose : Purpose) (names : List String)

structure Reader where
  enclosures : List (Enclosure × List Edge)
  edges : List Edge
  current : Current

def unwind : Program → Program × List String
  | .app function (.symbol name _) _ => ((unwind function).1, (unwind function).2 ++ [name])
  | program => (program, [])

def step : Token → Reader → Option Reader
  | .name name, ⟨enclosures, edges, .start⟩ =>
      some ⟨enclosures, edges, .program (.symbol name default)⟩
  | .name name, ⟨enclosures, edges, .program focus⟩ =>
      some ⟨enclosures, edges, .program (.app focus (.symbol name default) default)⟩
  | .name name, ⟨enclosures, edges, .names purpose names⟩ =>
      some ⟨enclosures, edges, .names purpose (names ++ [name])⟩
  | .opening, ⟨enclosures, edges, .program focus⟩ =>
      some ⟨(.argument focus, edges) :: enclosures, [], .start⟩
  | .closing, ⟨(.argument function, outer) :: enclosures, edges, .program focus⟩ =>
      some ⟨enclosures, outer, .program (.app function (whole edges focus) default)⟩
  | .lambda, ⟨enclosures, edges, .start⟩ => some ⟨enclosures, edges, .names .lambda []⟩
  | .fixWord, ⟨enclosures, edges, .start⟩ => some ⟨enclosures, edges, .names .fix []⟩
  | .dot, ⟨enclosures, edges, .names .lambda [parameter]⟩ =>
      some ⟨enclosures, .lambda parameter :: edges, .start⟩
  | .dot, ⟨enclosures, edges, .names .fix names⟩ =>
      some ⟨enclosures, .fix names :: edges, .start⟩
  | .ifWord, ⟨enclosures, edges, .start⟩ => some ⟨enclosures, edges, .names .guard []⟩
  | .thenWord, ⟨enclosures, edges, .names .guard ["True"]⟩ =>
      some ⟨(.thenBranch, edges) :: enclosures, [], .start⟩
  | .elseWord, ⟨(.thenBranch, outer) :: enclosures, edges, .program focus⟩ =>
      some ⟨enclosures, .elseBranch (whole edges focus) :: outer, .start⟩
  | .matchWord, ⟨enclosures, edges, .start⟩ =>
      some ⟨(.scrutinee, edges) :: enclosures, [], .start⟩
  | .withWord, ⟨(.scrutinee, outer) :: enclosures, edges, .program focus⟩ =>
      some ⟨enclosures, outer, .program (.caseOf (whole edges focus) [] default)⟩
  | .bar, ⟨enclosures, edges, .program focus⟩ =>
      (openMatch edges focus).map fun ⟨scrutinee, cases, outer⟩ =>
        ⟨enclosures, outer, .names (.pattern scrutinee cases) []⟩
  | .arrow, ⟨enclosures, edges, .names (.pattern scrutinee before) (name :: binders)⟩ =>
      some ⟨enclosures, .alternative scrutinee before name binders :: edges, .start⟩
  | .arrow, ⟨enclosures, edges, .program focus⟩ =>
      -- Before its first arrow a match is taken for one without alternatives that is applied.
      match unwind focus with
      | (.caseOf scrutinee [] _, name :: binders) =>
          some ⟨enclosures, .alternative scrutinee [] name binders :: edges, .start⟩
      | _ => none
  | _, _ => none

def read : List Token → Reader → Option Reader
  | [], reader => some reader
  | token :: rest, reader => (step token reader).bind (read rest)

end Printing

namespace Program

open Printing

mutual

def parts : Program → List Edge × Program
  | .symbol name _ => ([], .symbol name default)
  | .app function argument _ =>
      ((parts function).1,
        .app (parts function).2 (whole (parts argument).1 (parts argument).2) default)
  | .lambda parameter body _ => ((parts body).1 ++ [.lambda parameter], (parts body).2)
  | .fix names body _ => ((parts body).1 ++ [.fix names], (parts body).2)
  | .ite _ thenBranch elseBranch _ =>
      ((parts elseBranch).1 ++
          [.elseBranch (whole (parts thenBranch).1 (parts thenBranch).2)],
        (parts elseBranch).2)
  | .caseOf scrutinee [] _ =>
      ([], .caseOf (whole (parts scrutinee).1 (parts scrutinee).2) [] default)
  | .caseOf scrutinee (⟨name, binders, body⟩ :: rest) _ =>
      partsCases
        ((parts body).1 ++
          [.alternative (whole (parts scrutinee).1 (parts scrutinee).2) [] name binders])
        (parts body).2 rest
termination_by structural program => program

def partsCases (edges : List Edge) (focus : Program) :
    List (Case Program) → List Edge × Program
  | [] => (edges, focus)
  | ⟨name, binders, body⟩ :: rest =>
      match openMatch edges focus with
      | some ⟨scrutinee, before, outer⟩ =>
          partsCases ((parts body).1 ++ .alternative scrutinee before name binders :: outer)
            (parts body).2 rest
      | none => (edges, focus)
termination_by structural cases => cases

end

/-- The program that the reader makes of the tokens. -/
def reading (program : Program) : Program :=
  whole program.parts.1 program.parts.2

end Program

namespace Printing

variable {enclosures : List (Enclosure × List Edge)} {edges : List Edge} {rest : List Token}

/-! ## What the reader makes of a program -/

def applied (function : Program) (names : List String) : Program :=
  names.foldl (fun function name => .app function (.symbol name default) default) function

theorem unwind_applied (function : Program) (names : List String) :
    unwind (applied function names) = ((unwind function).1, (unwind function).2 ++ names) := by
  induction names generalizing function with
  | nil => rw [applied, List.foldl_nil, List.append_nil]
  | cons name names induction =>
      rw [applied, List.foldl_cons, ← applied, induction, unwind, List.append_assoc,
        List.singleton_append]

theorem read_arguments (names : List String) (focus : Program) :
    read (names.map .name ++ rest) ⟨enclosures, edges, .program focus⟩ =
      read rest ⟨enclosures, edges, .program (applied focus names)⟩ := by
  induction names generalizing focus with
  | nil => rfl
  | cons name names induction => exact induction _

theorem read_names (names before : List String) (purpose : Purpose) :
    read (names.map .name ++ rest) ⟨enclosures, edges, .names purpose before⟩ =
      read rest ⟨enclosures, edges, .names purpose (before ++ names)⟩ := by
  induction names generalizing before with
  | nil => rw [List.append_nil]; rfl
  | cons name names induction =>
      rw [List.append_cons, ← induction]
      rfl

theorem isSome_openMatch (inner outer : List Edge) (focus scrutinee : Program)
    (before : List (Case Program)) (name : String) (binders : List String) :
    (openMatch (inner ++ .alternative scrutinee before name binders :: outer) focus).isSome := by
  induction inner generalizing focus with
  | nil => rfl
  | cons edge inner induction =>
      cases edge with
      | alternative => rfl
      | _ => exact induction _

theorem openMatch_append {inner : List Edge} {focus : Program} {found : OpenMatch}
    (isOpen : openMatch inner focus = some found) :
    openMatch (inner ++ edges) focus =
      some ⟨found.scrutinee, found.cases, found.outer ++ edges⟩ := by
  induction inner generalizing focus with
  | nil => cases isOpen
  | cons edge inner induction =>
      cases edge with
      | alternative => cases isOpen; rfl
      | _ => exact induction isOpen

def ReadsParts (program : Program) : Prop :=
  ∀ enclosures edges rest,
    read (program.tokens ++ rest) ⟨enclosures, edges, .start⟩ =
      read rest ⟨enclosures, program.parts.1 ++ edges, .program program.parts.2⟩

theorem intercalate_cons_eq_flatMap {α : Type} (separator first : List α) (rest : List (List α)) :
    separator.intercalate (first :: rest) = first ++ rest.flatMap (separator ++ ·) := by
  induction rest generalizing first with
  | nil => simp
  | cons next rest induction =>
      rw [List.intercalate_cons_cons, induction, List.flatMap_cons, List.append_assoc,
        List.append_assoc]

theorem read_first_alternative {body : Program} (reads : ReadsParts body) (scrutinee : Program)
    (name : String) (binders : List String) :
    read ((name :: binders).map .name ++ .arrow :: (body.tokens ++ rest))
        ⟨enclosures, edges, .program (.caseOf scrutinee [] default)⟩ =
      read rest ⟨enclosures, body.parts.1 ++ .alternative scrutinee [] name binders :: edges,
        .program body.parts.2⟩ := by
  rw [read_arguments, read, step, unwind_applied]
  exact reads enclosures _ rest

theorem read_alternatives {cases : List (Case Program)}
    (each : ∀ case ∈ cases, ReadsParts case.body) (inner : List Edge) (focus : Program)
    (isOpen : (openMatch inner focus).isSome) :
    read ((Program.tokensCases cases).flatMap ([.bar] ++ ·) ++ rest)
        ⟨enclosures, inner ++ edges, .program focus⟩ =
      read rest ⟨enclosures, (Program.partsCases inner focus cases).1 ++ edges,
        .program (Program.partsCases inner focus cases).2⟩ := by
  induction cases generalizing inner focus with
  | nil => rfl
  | cons case cases induction =>
      rw [List.forall_mem_cons] at each
      rcases Option.isSome_iff_exists.mp isOpen with ⟨found, eq⟩
      have around : ∀ outer, (openMatch (case.body.parts.1 ++
          .alternative found.scrutinee found.cases case.constructorName case.binders :: outer)
          case.body.parts.2).isSome := fun outer => isSome_openMatch _ _ _ _ _ _ _
      calc read ((Program.tokensCases (case :: cases)).flatMap ([.bar] ++ ·) ++ rest)
            ⟨enclosures, inner ++ edges, .program focus⟩
        _ = (step .bar ⟨enclosures, inner ++ edges, .program focus⟩).bind
              (read ((case.constructorName :: case.binders).map .name ++ (.arrow ::
                (case.body.tokens ++
                  ((Program.tokensCases cases).flatMap ([.bar] ++ ·) ++ rest))))) := by
            rw [Program.tokensCases, List.flatMap_cons]
            simp only [List.append_assoc, List.cons_append, List.nil_append, read]
        _ = read (case.body.tokens ++
                ((Program.tokensCases cases).flatMap ([.bar] ++ ·) ++ rest))
              ⟨enclosures, .alternative found.scrutinee found.cases case.constructorName
                case.binders :: (found.outer ++ edges), .start⟩ := by
            rw [step, openMatch_append eq, Option.map_some, Option.bind_some, read_names]
            rfl
        _ = _ := by
            rw [each.1, ← List.cons_append, ← List.append_assoc, induction each.2 _ _ (around _),
              Program.partsCases, eq]

/-- The induction is for readers in any state, since a program is read within others. -/
theorem readsParts (program : Program) : ReadsParts program := by
  induction program using Program.induction with
  | symbol name type => exact fun enclosures edges rest => rfl
  | app function argument type first second =>
      intro enclosures edges rest
      cases compound : argument.isSymbol with
      | true =>
          rcases Program.exists_of_isSymbol compound with ⟨name, symbolType, rfl⟩
          rw [Program.tokens, List.append_assoc, first]
          rfl
      | false =>
          rw [Program.tokens_app_of_not_symbol compound]
          simp only [List.append_assoc]
          rw [first]
          exact (second _ _ _).trans (by rw [List.append_nil]; rfl)
  | lambda parameter body type induction =>
      intro enclosures edges rest
      rw [Program.tokens, Program.parts, List.append_assoc, List.append_assoc]
      exact induction enclosures _ rest
  | fix names body type induction =>
      intro enclosures edges rest
      rw [Program.tokens, Program.parts]
      simp only [List.append_assoc]
      exact (read_names names [] .fix).trans (induction enclosures _ rest)
  | ite guard thenBranch elseBranch type first second =>
      intro enclosures edges rest
      rw [Program.tokens, Program.parts]
      simp only [List.append_assoc]
      exact (first _ _ _).trans (by rw [List.append_nil]; exact second enclosures _ rest)
  | caseOf scrutinee cases type subject each =>
      intro enclosures edges rest
      rw [Program.tokens]
      simp only [List.append_assoc]
      apply (subject _ _ _).trans
      rw [List.append_nil]
      cases cases with
      | nil => rfl
      | cons case cases =>
          rw [List.forall_mem_cons] at each
          rw [Program.tokensCases, intercalate_cons_eq_flatMap]
          simp only [List.append_assoc]
          -- After the first alternative there is a match that the others belong to.
          apply (read_first_alternative each.1 _ _ _).trans
          rw [List.append_cons, read_alternatives each.2 _ _ (isSome_openMatch _ _ _ _ _ _ _),
            Program.parts]

theorem reading_eq_of_tokens_eq {p q : Program} (same : p.tokens = q.tokens) :
    p.reading = q.reading := by
  have first := readsParts p [] [] []
  have second := readsParts q [] [] []
  rw [same] at first
  have alike := first.symm.trans second
  simp only [read, List.append_nil, Option.some.injEq, Reader.mk.injEq, Current.program.injEq,
    true_and] at alike
  rw [Program.reading, Program.reading, alike.1, alike.2]

end Printing

end Inhabit
