import Inhabit.Proofs.Printing.Readings

/-! The text of a delimited program tells its structure.

The reader makes of the text of a delimited program the program itself, without its types.
The text of a program that is not delimited is read as another structure. -/

namespace Inhabit

namespace Program

open Printing

def bare : Program → Program :=
  mapAnnotations (fun _ => default) id

def bareCase (case : Case Program) : Case Program :=
  { case with body := case.body.bare }

theorem bare_caseOf (scrutinee : Program) (cases : List (Case Program)) (type : RefinedType) :
    (caseOf scrutinee cases type).bare = .caseOf scrutinee.bare (cases.map bareCase) default := by
  rw [bare, mapAnnotations, mapAnnotationsCases_eq_map]
  rfl

structure IsRead (program : Program) : Prop where
  reading_eq : program.reading = program.bare
  edges_eq : program.TakesArguments → program.parts.1 = []
  openMatch_eq : ¬program.EndsInCases → ∀ outer,
    openMatch (program.parts.1 ++ outer) program.parts.2 = openMatch outer program.bare

theorem whole_partsCases {cases : List (Case Program)} (each : ∀ case ∈ cases, IsRead case.body)
    (delimited : AreDelimited cases) {body scrutinee : Program} {before : List (Case Program)}
    {name : String} {binders : List String} (isRead : IsRead body)
    (closed : cases ≠ [] → ¬body.EndsInCases) :
    whole
        (partsCases (body.parts.1 ++ [.alternative scrutinee before name binders])
          body.parts.2 cases).1
        (partsCases (body.parts.1 ++ [.alternative scrutinee before name binders])
          body.parts.2 cases).2 =
      .caseOf scrutinee (before ++ bareCase ⟨name, binders, body⟩ :: cases.map bareCase)
        default := by
  induction cases generalizing body before name binders with
  | nil =>
      rw [partsCases, whole_append, ← reading, isRead.reading_eq]
      rfl
  | cons case cases induction =>
      rw [List.forall_mem_cons] at each
      have found := isRead.openMatch_eq (closed (List.cons_ne_nil _ _))
        [.alternative scrutinee before name binders]
      rw [partsCases, found]
      simp only [openMatch]
      rw [induction each.2 delimited.2.2 each.1 delimited.2.1, List.append_assoc]
      rfl

theorem isRead {program : Program} (plain : program.IsPlain) (delimited : program.IsDelimited) :
    IsRead program := by
  induction program using Program.induction with
  | symbol name type => exact ⟨rfl, fun _ => rfl, fun _ _ => rfl⟩
  | app function argument type first second =>
      have isFunction := first plain.1 delimited.2.1
      have isArgument := second plain.2 delimited.2.2
      have edges_eq := isFunction.edges_eq delimited.1
      have focus_eq := isFunction.reading_eq
      rw [reading, edges_eq, whole] at focus_eq
      have parts_eq : (app function argument type).parts =
          ([], (app function argument type).bare) := by
        rw [parts, edges_eq, focus_eq, ← reading, isArgument.reading_eq]
        rfl
      constructor
      · rw [reading, parts_eq, whole]
      · exact fun _ => by rw [parts_eq]
      · exact fun _ outer => by rw [parts_eq, List.nil_append]
  | lambda _ body type induction | fix _ body type induction =>
      have isBody := induction plain.2 delimited
      constructor
      · rw [reading, parts, whole_append, ← reading, isBody.reading_eq]
        rfl
      · intro takes
        cases takes
      · intro closed outer
        rw [parts, List.append_assoc, isBody.openMatch_eq closed]
        rfl
  | ite guard thenBranch elseBranch type first second =>
      have isThen := first plain.2.1 delimited.1
      have isElse := second plain.2.2 delimited.2
      rw [plain.1]
      constructor
      · rw [reading, parts, whole_append, ← reading, ← reading, isThen.reading_eq,
          isElse.reading_eq]
        rfl
      · intro takes
        cases takes
      · intro closed outer
        rw [parts, List.append_assoc, isElse.openMatch_eq closed, ← reading, isThen.reading_eq]
        rfl
  | caseOf scrutinee cases type subject each =>
      have isScrutinee := subject plain.1 delimited.1
      have isCase : ∀ case ∈ cases, IsRead case.body := fun case member =>
        each case member (arePlain_iff.mp plain.2 case member).2
          (delimited.2.all case member)
      cases cases with
      | nil =>
          have parts_eq : (caseOf scrutinee [] type).parts =
              ([], (caseOf scrutinee [] type).bare) := by
            rw [parts, ← reading, isScrutinee.reading_eq, bare_caseOf, List.map_nil]
          constructor
          · rw [reading, parts_eq, whole]
          · exact fun _ => by rw [parts_eq]
          · exact fun _ outer => by rw [parts_eq, List.nil_append]
      | cons case cases =>
          rw [List.forall_mem_cons] at isCase
          constructor
          · rw [reading, parts, whole_partsCases isCase.2 delimited.2.2.2 isCase.1 delimited.2.2.1,
              ← reading, isScrutinee.reading_eq, bare_caseOf]
            rfl
          · intro takes
            cases takes
          · exact fun closed => absurd rfl closed

/-! ## The text does not depend on the types -/

theorem isSymbol_bare (program : Program) : program.bare.isSymbol = program.isSymbol := by
  cases program <;> rfl

theorem render_bare (program : Program) : program.bare.render = program.render := by
  induction program using Program.induction with
  | symbol name type => rfl
  | app function argument type first second =>
      cases compound : argument.isSymbol with
      | true =>
          rcases exists_of_isSymbol compound with ⟨name, symbolType, rfl⟩
          exact congrArg (· ++ " " ++ name) first
      | false =>
          rw [render_app_of_not_symbol compound, ← first, ← second]
          exact render_app_of_not_symbol ((isSymbol_bare argument).trans compound)
  | lambda _ body type induction | fix _ body type induction => exact congrArg (_ ++ ·) induction
  | ite guard thenBranch elseBranch type first second =>
      rw [render, ← first, ← second]
      rfl
  | caseOf scrutinee cases type subject each =>
      rw [bare_caseOf, render, render, subject, renderCases_eq_map, renderCases_eq_map,
        List.map_map]
      congr 2
      apply List.map_congr_left
      intro case member
      rw [Function.comp_apply, caseText, caseText, bareCase, each case member]

theorem takesArguments_bare (program : Program) :
    program.bare.TakesArguments = program.TakesArguments := by
  cases program with
  | caseOf scrutinee cases => cases cases <;> rfl
  | _ => rfl

theorem endsInCases_bare (program : Program) :
    program.bare.EndsInCases = program.EndsInCases := by
  induction program using Program.induction with
  | symbol | app => rfl
  | lambda _ _ _ induction | fix _ _ _ induction | ite _ _ _ _ _ induction => exact induction
  | caseOf scrutinee cases => cases cases <;> rfl

theorem areDelimited_map_bareCase {cases : List (Case Program)}
    (each : ∀ case ∈ cases, case.body.bare.IsDelimited ↔ case.body.IsDelimited) :
    AreDelimited (cases.map bareCase) ↔ AreDelimited cases := by
  induction cases with
  | nil => rfl
  | cons case cases induction =>
      rw [List.forall_mem_cons] at each
      rw [List.map_cons, bareCase, AreDelimited, AreDelimited, each.1, endsInCases_bare,
        induction each.2, ne_eq, List.map_eq_nil_iff]

theorem isDelimited_bare (program : Program) : program.bare.IsDelimited ↔ program.IsDelimited := by
  induction program using Program.induction with
  | symbol => rfl
  | app function argument type first second =>
      rw [IsDelimited, ← takesArguments_bare, ← first, ← second]
      rfl
  | lambda _ _ _ induction | fix _ _ _ induction => exact induction
  | ite guard thenBranch elseBranch type first second => exact and_congr first second
  | caseOf scrutinee cases type subject each =>
      rw [bare_caseOf, IsDelimited, IsDelimited, subject, areDelimited_map_bareCase each]

/-! ## Structures and texts -/

theorem bare_eq_of_render_eq {p q : Program} (plain : p.IsPlain) (other : q.IsPlain)
    (delimited : p.IsDelimited) (otherDelimited : q.IsDelimited) (same : p.render = q.render) :
    p.bare = q.bare := by
  have readings := reading_eq_of_tokens_eq (tokens_eq_of_render_eq plain other same)
  rwa [(isRead plain delimited).reading_eq, (isRead other otherDelimited).reading_eq] at readings

/-- Delimited programs have the same text just if they differ in types alone, and every text
is that of a delimited program. It is another program if the program is not delimited. -/
theorem text_tells_structure {p q : Program} (plain : p.IsPlain) (other : q.IsPlain) :
    (p.IsDelimited → q.IsDelimited → (p.render = q.render ↔ p.bare = q.bare)) ∧
      ∃ reading : Program, reading.IsPlain ∧ reading.IsDelimited ∧
        reading.render = p.render ∧ (p.IsDelimited ↔ reading.bare = p.bare) := by
  constructor
  · intro delimited otherDelimited
    constructor
    · exact bare_eq_of_render_eq plain other delimited otherDelimited
    · intro same
      rw [← render_bare p, same, render_bare]
  · rcases reading_canonical plain with ⟨canonical, text⟩
    apply Exists.intro p.reading
    apply And.intro canonical.plain
    apply And.intro canonical.delimited
    apply And.intro text
    constructor
    · exact fun delimited =>
        bare_eq_of_render_eq canonical.plain plain canonical.delimited delimited text
    · intro same
      rw [← isDelimited_bare, ← same, isDelimited_bare]
      exact canonical.delimited

def nestedMatch : Program :=
  .caseOf (.symbol "s" default)
    [⟨"A", [], .caseOf (.symbol "t" default) [⟨"B", [], .symbol "b" default⟩] default⟩,
      ⟨"C", [], .symbol "c" default⟩]
    default

def wideMatch (type : RefinedType) : Program :=
  .caseOf (.symbol "s" type)
    [⟨"A", [], .caseOf (.symbol "t" type)
      [⟨"B", [], .symbol "b" type⟩, ⟨"C", [], .symbol "c" type⟩] type⟩]
    type

def appliedFunction : Program :=
  .app (.lambda "x" (.symbol "f" default) default) (.symbol "y" default) default

def functionOfApplication : Program :=
  .lambda "x" (.app (.symbol "f" default) (.symbol "y" default) default) default

theorem nestedMatch_plain : nestedMatch.IsPlain := by
  simp only [nestedMatch, IsPlain, ArePlain]
  decide

theorem wideMatch_plain (type : RefinedType) : (wideMatch type).IsPlain := by
  simp only [wideMatch, IsPlain, ArePlain]
  decide

theorem wideMatch_delimited (type : RefinedType) : (wideMatch type).IsDelimited := by
  simp [wideMatch, IsDelimited, AreDelimited, EndsInCases]

theorem nestedMatch_not_delimited : ¬nestedMatch.IsDelimited := by
  simp [nestedMatch, IsDelimited, AreDelimited, EndsInCases]

/-- The types are not told; of the nested match the text tells another structure. -/
theorem wideMatch_told :
    (wideMatch (.scalar .int [] .top)).bare = (wideMatch (.scalar .bool [] .top)).bare ∧
      ∃ reading : Program, reading.IsPlain ∧ reading.IsDelimited ∧
        reading.render = nestedMatch.render ∧ reading.bare ≠ nestedMatch.bare := by
  constructor
  · have told := text_tells_structure (wideMatch_plain (.scalar .int [] .top))
      (wideMatch_plain (.scalar .bool [] .top))
    exact (told.1 (wideMatch_delimited _) (wideMatch_delimited _)).mp rfl
  · rcases text_tells_structure nestedMatch_plain nestedMatch_plain with
      ⟨_, reading, plain, delimited, text, same⟩
    exact ⟨reading, plain, delimited, text,
      fun equal => nestedMatch_not_delimited (same.mpr equal)⟩

/-- A text of two structures: what comes last belongs to a part or to the whole. -/
theorem nestedMatch_ambiguous :
    (nestedMatch.IsPlain ∧ (wideMatch default).IsPlain ∧
        nestedMatch.render = (wideMatch default).render ∧
        nestedMatch.bare ≠ (wideMatch default).bare) ∧
      (appliedFunction.IsPlain ∧ functionOfApplication.IsPlain ∧
        appliedFunction.render = functionOfApplication.render ∧
        appliedFunction.bare ≠ functionOfApplication.bare) := by
  constructor
  · exact ⟨nestedMatch_plain, wideMatch_plain default, rfl, nofun⟩
  · have plain : IsName "x" ∧ IsName "f" ∧ IsName "y" := by decide
    exact ⟨⟨⟨plain.1, plain.2.1⟩, plain.2.2⟩, ⟨plain.1, plain.2.1, plain.2.2⟩, rfl, nofun⟩

end Program

end Inhabit
