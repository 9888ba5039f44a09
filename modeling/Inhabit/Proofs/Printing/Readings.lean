import Inhabit.Proofs.Printing.Reader

/-! What the reader makes of the text of a program has the same text.

Bodies, branches and alternatives go on to the right as far as they can. The reading of a
program is delimited: in it no argument and no alternative is where it would belong to a part
before it. -/

namespace Inhabit

namespace Program

open Printing

mutual

/-- An argument after the text of the program belongs to the program as a whole. -/
def TakesArguments : Program → Bool
  | .symbol _ _ | .app _ _ _ => true
  | .lambda _ _ _ | .fix _ _ _ | .ite _ _ _ _ => false
  | .caseOf _ cases _ => cases.isEmpty

/-- An alternative after the text of the program belongs to a match that ends with it. -/
def EndsInCases : Program → Bool
  | .symbol _ _ | .app _ _ _ => false
  | .lambda _ body _ | .fix _ body _ | .ite _ _ body _ => EndsInCases body
  | .caseOf _ cases _ => !cases.isEmpty

end

mutual

/-- No argument and no alternative stands where it would belong to a part before it. -/
def IsDelimited : Program → Prop
  | .symbol _ _ => True
  | .app function argument _ =>
      TakesArguments function ∧ IsDelimited function ∧ IsDelimited argument
  | .lambda _ body _ | .fix _ body _ => IsDelimited body
  | .ite _ thenBranch elseBranch _ => IsDelimited thenBranch ∧ IsDelimited elseBranch
  | .caseOf scrutinee cases _ => IsDelimited scrutinee ∧ AreDelimited cases
termination_by structural program => program

def AreDelimited : List (Case Program) → Prop
  | [] => True
  | ⟨_, _, body⟩ :: rest =>
      IsDelimited body ∧ (rest ≠ [] → ¬EndsInCases body) ∧ AreDelimited rest
termination_by structural cases => cases

end

theorem AreDelimited.all {cases : List (Case Program)} (delimited : AreDelimited cases) :
    ∀ case ∈ cases, case.body.IsDelimited := by
  induction cases with
  | nil => exact List.forall_mem_nil _
  | cons case rest induction =>
      exact List.forall_mem_cons.mpr ⟨delimited.1, induction delimited.2.2⟩

theorem areDelimited_append {before : List (Case Program)} {case : Case Program}
    (delimited : ∀ case ∈ before, case.body.IsDelimited ∧ ¬case.body.EndsInCases)
    (last : case.body.IsDelimited) : AreDelimited (before ++ [case]) := by
  induction before with
  | nil => exact ⟨last, fun more => absurd rfl more, trivial⟩
  | cons first before induction =>
      rw [List.forall_mem_cons] at delimited
      exact ⟨delimited.1.1, fun _ => delimited.1.2, induction delimited.2⟩

theorem not_endsInCases_of_takesArguments {program : Program}
    (takesArguments : program.TakesArguments) : ¬program.EndsInCases := by
  cases program <;> simp_all [TakesArguments, EndsInCases]

/-- A program that the reader can make of a text. -/
structure IsCanonical (program : Program) : Prop where
  plain : program.IsPlain
  delimited : program.IsDelimited

end Program

namespace Printing

open Program

def matchText (scrutinee : Program) (before : List (Case Program)) (pattern : List String) :
    String :=
  "match " ++ scrutinee.render ++ " with " ++
    " | ".intercalate (before.map caseText ++ [" ".intercalate pattern ++ " -> "])

def Edge.text : Edge → String
  | .lambda parameter => "\\" ++ parameter ++ " . "
  | .fix names => "fix " ++ " ".intercalate names ++ " . "
  | .elseBranch thenBranch => "if True then " ++ thenBranch.render ++ " else "
  | .alternative scrutinee before name binders => matchText scrutinee before (name :: binders)

def lead : List Edge → String
  | [] => ""
  | edge :: outer => lead outer ++ edge.text

theorem lead_append (edges outer : List Edge) :
    lead (edges ++ outer) = lead outer ++ lead edges := by
  induction edges with
  | nil => exact String.append_empty.symm
  | cons edge edges induction =>
      rw [List.cons_append, lead, lead, induction, String.append_assoc]

structure IsClosed (case : Case Program) : Prop where
  names : ∀ name ∈ case.constructorName :: case.binders, IsName name
  body : case.body.IsCanonical
  closed : ¬case.body.EndsInCases

def Edge.IsCanonical : Edge → Prop
  | .lambda parameter => IsName parameter
  | .fix names => ∀ name ∈ names, IsName name
  | .elseBranch thenBranch => thenBranch.IsCanonical
  | .alternative scrutinee before constructorName binders =>
      scrutinee.IsCanonical ∧ (∀ case ∈ before, IsClosed case) ∧
        ∀ name ∈ constructorName :: binders, IsName name

/-! ## The text of the parts around a program -/

theorem matchText_append_render {scrutinee body : Program} {before : List (Case Program)}
    {name : String} {binders : List String} :
    matchText scrutinee before (name :: binders) ++ body.render =
      (Program.caseOf scrutinee (before ++ [⟨name, binders, body⟩]) default).render := by
  rw [matchText, render, renderCases_eq_map, List.map_append, List.map_singleton, caseText]
  cases before with
  | nil => simp [String.append_assoc]
  | cons case before =>
      rw [String.intercalate_append_of_ne_nil (by simp) (by simp),
        String.intercalate_append_of_ne_nil (by simp) (by simp)]
      simp [String.append_assoc]

theorem matchText_of_ne_nil {scrutinee : Program} {cases : List (Case Program)}
    (nonempty : cases ≠ []) (pattern : List String) :
    matchText scrutinee cases pattern =
      (Program.caseOf scrutinee cases default).render ++ " | " ++
        (" ".intercalate pattern ++ " -> ") := by
  rw [matchText, render, renderCases_eq_map,
    String.intercalate_append_of_ne_nil (by simpa using nonempty) (by simp),
    String.intercalate_singleton]
  simp [String.append_assoc]

theorem Edge.render_close (edge : Edge) (body : Program) :
    (edge.close body).render = edge.text ++ body.render := by
  cases edge with
  | lambda | fix | elseBranch => rfl
  | alternative => exact matchText_append_render.symm

theorem Edge.IsCanonical.close {edge : Edge} {body : Program} (canonical : edge.IsCanonical)
    (isBody : body.IsCanonical) : (edge.close body).IsCanonical := by
  cases edge with
  | lambda | fix => exact ⟨⟨canonical, isBody.plain⟩, isBody.delimited⟩
  | elseBranch thenBranch =>
      exact ⟨⟨rfl, canonical.plain, isBody.plain⟩, canonical.delimited, isBody.delimited⟩
  | alternative scrutinee before name binders =>
      rcases canonical with ⟨subject, closed, names⟩
      constructor
      · apply And.intro subject.plain
        rw [arePlain_iff]
        intro case member
        rcases List.mem_append.mp member with earlier | last
        · exact ⟨(closed case earlier).names, (closed case earlier).body.plain⟩
        · cases List.mem_singleton.mp last
          exact ⟨names, isBody.plain⟩
      · exact ⟨subject.delimited, areDelimited_append
          (fun case member => ⟨(closed case member).body.delimited, (closed case member).closed⟩)
          isBody.delimited⟩

structure Spells (edges : List Edge) (focus : Program) (text : String) : Prop where
  around : ∀ edge ∈ edges, edge.IsCanonical
  within : focus.IsCanonical
  text_eq : lead edges ++ focus.render = text

namespace Spells

variable {edge : Edge} {edges outer : List Edge} {focus : Program} {text : String}

theorem close (spells : Spells (edge :: outer) focus text) :
    Spells outer (edge.close focus) text := by
  have canonical := List.forall_mem_cons.mp spells.around
  constructor
  · exact canonical.2
  · exact canonical.1.close spells.within
  · rw [edge.render_close, ← String.append_assoc]
    exact spells.text_eq

theorem whole (spells : Spells edges focus text) :
    (whole edges focus).IsCanonical ∧ (whole edges focus).render = text := by
  induction edges generalizing focus with
  | nil => exact ⟨spells.within, spells.text_eq⟩
  | cons edge outer induction => exact induction spells.close

theorem append (spells : Spells edges focus text)
    (canonical : ∀ edge ∈ outer, edge.IsCanonical) :
    Spells (edges ++ outer) focus (lead outer ++ text) := by
  constructor
  · rw [List.forall_mem_append]
    exact ⟨spells.around, canonical⟩
  · exact spells.within
  · rw [lead_append, String.append_assoc, spells.text_eq]

theorem enclose (spells : Spells edges focus text) (canonical : edge.IsCanonical) :
    Spells (edges ++ [edge]) focus (edge.text ++ text) := by
  have enclosed := spells.append (List.forall_mem_singleton.mpr canonical)
  rwa [lead, lead, String.empty_append] at enclosed

theorem openMatch {found : OpenMatch} {name : String} {binders : List String}
    (spells : Spells edges focus text) (closed : ¬focus.EndsInCases)
    (isOpen : openMatch edges focus = some found)
    (names : ∀ word ∈ name :: binders, IsName word) :
    (∀ edge ∈ .alternative found.scrutinee found.cases name binders :: found.outer,
        Edge.IsCanonical edge) ∧
      lead (.alternative found.scrutinee found.cases name binders :: found.outer) =
        text ++ " | " ++ (" ".intercalate (name :: binders) ++ " -> ") := by
  induction edges generalizing focus with
  | nil => cases isOpen
  | cons edge outer induction =>
      cases edge with
      | alternative scrutinee before earlierName earlierBinders =>
          cases isOpen
          have canonical := List.forall_mem_cons.mp spells.around
          rcases canonical.1 with ⟨subject, earlier, earlierNames⟩
          constructor
          · have cases_closed : ∀ case ∈ before ++ [⟨earlierName, earlierBinders, focus⟩],
                IsClosed case := by
              rw [List.forall_mem_append, List.forall_mem_singleton]
              exact ⟨earlier, earlierNames, spells.within, closed⟩
            rw [List.forall_mem_cons]
            exact ⟨⟨subject, cases_closed, names⟩, canonical.2⟩
          · rw [lead, Edge.text, matchText_of_ne_nil (by simp), ← spells.close.text_eq,
              Edge.close]
            simp only [String.append_assoc]
      | _ => exact induction spells.close closed isOpen

end Spells

/-! ## Readings -/

theorem isSymbol_whole {edges : List Edge} {focus : Program}
    (compound : edges ≠ [] ∨ focus.isSymbol = false) : (whole edges focus).isSymbol = false := by
  induction edges generalizing focus with
  | nil => exact compound.resolve_left fun h => h rfl
  | cons edge outer induction =>
      apply induction
      right
      cases edge <;> rfl

theorem isSome_openMatch_partsCases (cases : List (Case Program)) {edges : List Edge}
    {focus : Program} (isOpen : (openMatch edges focus).isSome) :
    (openMatch (partsCases edges focus cases).1 (partsCases edges focus cases).2).isSome := by
  induction cases generalizing edges focus with
  | nil => exact isOpen
  | cons case cases induction =>
      rcases Option.isSome_iff_exists.mp isOpen with ⟨found, eq⟩
      rw [partsCases, eq]
      exact induction (isSome_openMatch _ _ _ _ _ _ _)

theorem isSymbol_reading (program : Program) :
    program.reading.isSymbol = program.isSymbol := by
  cases program with
  | symbol => rfl
  | app => exact isSymbol_whole (.inr rfl)
  | lambda | fix | ite => exact isSymbol_whole (.inl (by simp [parts]))
  | caseOf scrutinee cases =>
      cases cases with
      | nil => rfl
      | cons case cases =>
          have isOpen := isSome_openMatch_partsCases cases
            (isSome_openMatch case.body.parts.1 [] case.body.parts.2 scrutinee.reading []
              case.constructorName case.binders)
          apply isSymbol_whole
          left
          intro nothing
          rw [parts, ← reading] at nothing
          rw [nothing] at isOpen
          cases isOpen

def SpellsParts (program : Program) : Prop :=
  program.IsPlain →
    Spells program.parts.1 program.parts.2 program.render ∧ program.parts.2.TakesArguments

theorem spells_partsCases {cases : List (Case Program)} (plain : ArePlain cases)
    (each : ∀ case ∈ cases, SpellsParts case.body) {edges : List Edge} {focus : Program}
    {text : String} (spells : Spells edges focus text) (takes : focus.TakesArguments)
    (isOpen : (openMatch edges focus).isSome) :
    Spells (partsCases edges focus cases).1 (partsCases edges focus cases).2
        (" | ".intercalate (text :: cases.map caseText)) ∧
      (partsCases edges focus cases).2.TakesArguments := by
  induction cases generalizing edges focus text with
  | nil => exact ⟨spells, takes⟩
  | cons case cases induction =>
      rcases Option.isSome_iff_exists.mp isOpen with ⟨found, eq⟩
      rw [List.forall_mem_cons] at each
      rcases each.1 plain.1.2 with ⟨body, bodyTakes⟩
      rcases spells.openMatch (not_endsInCases_of_takesArguments takes) eq plain.1.1 with
        ⟨canonical, leads⟩
      have further := induction plain.2 each.2 (body.append canonical) bodyTakes
        (isSome_openMatch _ _ _ _ _ _ _)
      rw [leads, String.append_assoc, String.intercalate_cons_append,
        ← String.intercalate_cons_cons] at further
      rw [partsCases, eq]
      exact further

theorem spellsParts (program : Program) : SpellsParts program := by
  induction program using Program.induction with
  | symbol name type =>
      intro plain
      exact ⟨⟨List.forall_mem_nil _, ⟨plain, trivial⟩, String.empty_append⟩, rfl⟩
  | app function argument type first second =>
      intro plain
      rcases first plain.1 with ⟨spells, takes⟩
      rcases (second plain.2).1.whole with ⟨canonical, text⟩
      constructor
      · constructor
        · exact spells.around
        · exact ⟨⟨spells.within.plain, canonical.plain⟩, takes, spells.within.delimited,
            canonical.delimited⟩
        -- Only a compound argument is in parentheses.
        · cases compound : argument.isSymbol with
          | true =>
              rcases exists_of_isSymbol compound with ⟨name, symbolType, rfl⟩
              rw [render, ← spells.text_eq]
              simp only [parts, render, Printing.whole, String.append_assoc]
          | false =>
              rw [render_app_of_not_symbol compound, parts, ← reading,
                render_app_of_not_symbol ((isSymbol_reading argument).trans compound),
                reading, text, ← spells.text_eq]
              simp only [String.append_assoc]
      · rfl
  | lambda _ body type induction | fix _ body type induction =>
      intro plain
      rcases induction plain.2 with ⟨spells, takes⟩
      exact ⟨spells.enclose plain.1, takes⟩
  | ite guard thenBranch elseBranch type first second =>
      intro plain
      rcases second plain.2.2 with ⟨spells, takes⟩
      rcases (first plain.2.1).1.whole with ⟨canonical, text⟩
      have edge : (Edge.elseBranch thenBranch.reading).IsCanonical := canonical
      have enclosed := spells.enclose edge
      rw [Edge.text, reading, text] at enclosed
      rw [render, plain.1]
      exact ⟨enclosed, takes⟩
  | caseOf scrutinee cases type subject each =>
      intro plain
      rcases (subject plain.1).1.whole with ⟨canonical, text⟩
      cases cases with
      | nil =>
          constructor
          · constructor
            · exact List.forall_mem_nil _
            · exact ⟨⟨canonical.plain, trivial⟩, canonical.delimited, trivial⟩
            · rw [parts, render, render, text]
              rfl
          · rfl
      | cons case cases =>
          rw [List.forall_mem_cons] at each
          rcases each.1 plain.2.1.2 with ⟨body, takes⟩
          have edge : (Edge.alternative scrutinee.reading [] case.constructorName
              case.binders).IsCanonical := ⟨canonical, List.forall_mem_nil _, plain.2.1.1⟩
          -- The first alternative opens the match, and the others go on from there.
          have all := spells_partsCases plain.2.2 each.2 (body.enclose edge) takes
            (isSome_openMatch _ _ _ _ _ _ _)
          have texts : " | ".intercalate ((Edge.text (.alternative scrutinee.reading []
              case.constructorName case.binders) ++ case.body.render) :: cases.map caseText) =
              (caseOf scrutinee (case :: cases) type).render := by
            rw [Edge.text, matchText, reading, text, render, renderCases_eq_map, List.map_cons,
              caseText]
            simp only [List.map_nil, List.nil_append, String.intercalate_singleton,
              String.append_assoc, String.intercalate_cons_append]
          rw [parts, ← texts]
          exact all

theorem reading_canonical {program : Program} (plain : program.IsPlain) :
    program.reading.IsCanonical ∧ program.reading.render = program.render :=
  (spellsParts program plain).1.whole

end Printing

end Inhabit
