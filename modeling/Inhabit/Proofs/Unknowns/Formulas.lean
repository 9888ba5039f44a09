import Inhabit.Formula.Unknowns

/-! Which unknowns a formula mentions, and what becomes of them.

What is pending for an unknown is to be applied to the predicate that is found for
it. Here it only ever puts variables in the place of variables, so that it brings no
unknowns of its own. -/

namespace Inhabit

namespace Formula

/-- Induction that does not look into the pending renamings of unknowns. -/
theorem induction {motive : Formula → Prop}
    (bool : ∀ value, motive (.bool value)) (int : ∀ value, motive (.int value))
    (var : ∀ sort name, motive (.var sort name))
    (unknown : ∀ pending name, motive (.unknown pending name))
    (unary : ∀ op f, motive f → motive (.unary op f))
    (binary : ∀ op f g, motive f → motive g → motive (.binary op f g))
    (ite : ∀ f g h, motive f → motive g → motive h → motive (.ite f g h))
    (measure : ∀ sort name f, motive f → motive (.measure sort name f)) :
    ∀ f, motive f :=
  @Formula.rec motive (fun _ => True) (fun _ => True) bool int var
    (fun pending name _ => unknown pending name) unary binary ite measure
    trivial (fun _ _ _ _ => trivial) (fun _ _ _ => trivial)

def Known (f : Formula) : Prop := f.unknownOccurrences = []

instance (f : Formula) : Decidable f.Known :=
  inferInstanceAs (Decidable (f.unknownOccurrences = []))

def isVariable : Formula → Bool
  | .var _ _ => true
  | _ => false

end Formula

def Substitution.Renames (substitution : Substitution) : Prop :=
  ∀ entry ∈ substitution, entry.2.isVariable = true

namespace Formula

/-- Every unknown is among those covered, and what is pending for it renames
variables. -/
def Covered (covers : String → Prop) : Formula → Prop
  | .bool _ | .int _ | .var _ _ => True
  | .unknown pending name => covers name ∧ Substitution.Renames pending
  | .unary _ f | .measure _ _ f => Covered covers f
  | .binary _ f g => Covered covers f ∧ Covered covers g
  | .ite f g h => Covered covers f ∧ Covered covers g ∧ Covered covers h

variable {covers wider : String → Prop}

theorem Covered.mono {f : Formula} (covered : f.Covered covers)
    (widens : ∀ unknown, covers unknown → wider unknown) : f.Covered wider := by
  induction f using Formula.induction with
  | bool | int | var => trivial
  | unknown pending name => exact covered.imp_left (widens name)
  | unary op f induction | measure sort name f induction => exact induction covered
  | binary op f g first second => exact covered.imp first second
  | ite f g h first second third => exact covered.imp first (And.imp second third)

theorem Covered.of_mem {f : Formula} (covered : f.Covered covers) :
    ∀ unknown ∈ f.unknownOccurrences, covers unknown := by
  induction f using Formula.induction with
  | bool | int | var => exact List.forall_mem_nil _
  | unknown pending name =>
      intro unknown member
      rw [List.mem_singleton.mp member]
      exact covered.1
  | unary op f induction | measure sort name f induction => exact induction covered
  | binary op f g first second =>
      exact List.forall_mem_append.mpr ⟨first covered.1, second covered.2⟩
  | ite f g h first second third =>
      exact List.forall_mem_append.mpr ⟨first covered.1,
        List.forall_mem_append.mpr ⟨second covered.2.1, third covered.2.2⟩⟩

theorem Known.covered {f : Formula} (known : f.Known) : f.Covered covers := by
  unfold Known at known
  induction f using Formula.induction with
  | bool | int | var => trivial
  | unknown => cases known
  | unary op f induction | measure sort name f induction => exact induction known
  | binary op f g first second =>
      exact (List.append_eq_nil_iff.mp known).imp first second
  | ite f g h first second third =>
      exact (List.append_eq_nil_iff.mp known).imp first fun branches =>
        (List.append_eq_nil_iff.mp branches).imp second third

theorem known_iff_covered {f : Formula} : f.Known ↔ f.Covered fun _ => False :=
  ⟨Known.covered, fun covered => List.eq_nil_iff_forall_not_mem.mpr covered.of_mem⟩

/-! ## Connectives -/

theorem top_and (f : Formula) : top.and f = f := rfl

theorem and_top (f : Formula) : f.and top = f := by
  unfold Formula.and
  cases f with
  | bool value => cases value <;> rfl
  | _ => rfl

theorem bottom_and (f : Formula) : bottom.and f = bottom := by
  unfold Formula.and
  cases f with
  | bool value => cases value <;> rfl
  | _ => rfl

theorem and_bottom (f : Formula) : f.and bottom = bottom := by
  unfold Formula.and
  rw [isFalse, Bool.not_false, Bool.or_true, if_pos rfl]

section Connectives

variable {motive : Formula → Prop} {left right : Formula}

theorem and_cases (first : motive left) (second : motive right)
    (both : motive (.binary .and left right)) : motive (left.and right) := by
  unfold Formula.and
  split
  · exact second
  · split
    · exact first
    · exact both

theorem or_cases (first : motive left) (second : motive right)
    (both : motive (.binary .or left right)) : motive (left.or right) := by
  unfold Formula.or
  split
  · exact second
  · split
    · exact first
    · exact both

theorem foldl_closed {combine : Formula → Formula → Formula}
    (closed : ∀ left right, motive left → motive right → motive (combine left right))
    {formulas : List Formula} {start : Formula} (first : motive start)
    (rest : ∀ f ∈ formulas, motive f) : motive (formulas.foldl combine start) := by
  induction formulas generalizing start with
  | nil => exact first
  | cons f others induction =>
      rcases List.forall_mem_cons.mp rest with ⟨second, others⟩
      exact induction (closed start f first second) others

end Connectives

theorem Covered.and {left right : Formula} (first : left.Covered covers)
    (second : right.Covered covers) : (left.and right).Covered covers :=
  and_cases first second ⟨first, second⟩

theorem Covered.or {left right : Formula} (first : left.Covered covers)
    (second : right.Covered covers) : (left.or right).Covered covers :=
  or_cases first second ⟨first, second⟩

theorem covered_conjunction {formulas : List Formula}
    (all : ∀ f ∈ formulas, f.Covered covers) : (conjunction formulas).Covered covers :=
  foldl_closed (fun _ _ => Covered.and) trivial all

theorem covered_disjunction {formulas : List Formula}
    (all : ∀ f ∈ formulas, f.Covered covers) : (disjunction formulas).Covered covers :=
  foldl_closed (fun _ _ => Covered.or) trivial all

/-! ## Renaming variables -/

theorem isVariable_substitute {substitution : Substitution} (renames : substitution.Renames)
    {f : Formula} (isVariable : f.isVariable = true) :
    (f.substitute substitution).isVariable = true := by
  cases f with
  | var sort name =>
      rw [substitute]
      cases found : Entries.find? name substitution with
      | none => rfl
      | some replacement => exact renames _ (Entries.mem_of_find? found)
  | _ => cases isVariable

theorem renames_substituteEntries {substitution pending : Substitution}
    (renames : substitution.Renames) (pendingRenames : pending.Renames) :
    Substitution.Renames (substituteEntries substitution pending) := by
  induction pending with
  | nil => exact List.forall_mem_nil _
  | cons entry rest induction =>
      rcases List.forall_mem_cons.mp pendingRenames with ⟨first, others⟩
      exact List.forall_mem_cons.mpr
        ⟨isVariable_substitute renames first, induction others⟩

end Formula

namespace Substitution

theorem Renames.erase {substitution : Substitution} (renames : substitution.Renames)
    (name : String) : Substitution.Renames (Entries.erase name substitution) :=
  fun entry member => renames entry (List.mem_filter.mp member).1

theorem mem_extend {first later : Substitution} {entry : String × Formula}
    (member : entry ∈ first.extend later) : entry ∈ first ∨ entry ∈ later := by
  unfold Substitution.extend at member
  induction later generalizing first with
  | nil => exact .inl member
  | cons next rest induction =>
      rcases induction member with joined | inRest
      · dsimp only at joined
        split at joined
        · exact .inl joined
        · rcases Entries.mem_insert joined with rfl | old
          · exact .inr List.mem_cons_self
          · exact .inl old
      · exact .inr (List.mem_cons_of_mem _ inRest)

theorem Renames.extend {first later : Substitution} (renames : first.Renames)
    (laterRenames : later.Renames) : (first.extend later).Renames :=
  fun entry member => (mem_extend member).elim (renames entry) (laterRenames entry)

end Substitution

namespace Formula

variable {covers : String → Prop}

theorem Covered.substitute {f : Formula} (covered : f.Covered covers)
    {substitution : Substitution} (renames : substitution.Renames) :
    (f.substitute substitution).Covered covers := by
  induction f using Formula.induction with
  | bool | int => trivial
  | var sort name =>
      have isVariable := isVariable_substitute renames (f := .var sort name) rfl
      revert isVariable
      cases (Formula.var sort name).substitute substitution with
      | var => exact fun _ => trivial
      | _ => exact nofun
  | unknown pending name =>
      exact covered.imp_right fun pendingRenames =>
        (renames_substituteEntries renames pendingRenames).extend renames
  | unary op f induction | measure sort name f induction => exact induction covered
  | binary op f g first second => exact covered.imp first second
  | ite f g h first second third => exact covered.imp first (And.imp second third)

theorem covered_substituteVar {f : Formula} (covered : f.Covered covers) (name : String)
    (sort : LogicSort) (new : String) :
    (f.substituteVar name (.var sort new)).Covered covers :=
  covered.substitute (List.forall_mem_singleton.mpr rfl)

theorem renames_instantiateSortsEntries {sorts : SortAssignment} {pending : Substitution}
    (renames : pending.Renames) :
    Substitution.Renames (instantiateSortsEntries sorts pending) := by
  induction pending with
  | nil => exact List.forall_mem_nil _
  | cons entry rest induction =>
      rcases entry with ⟨name, f⟩
      rcases List.forall_mem_cons.mp renames with ⟨first, others⟩
      apply List.forall_mem_cons.mpr ⟨_, induction others⟩
      cases f with
      | var => rfl
      | _ => cases first

theorem Covered.instantiateSorts {f : Formula} (covered : f.Covered covers)
    (sorts : SortAssignment) : (f.instantiateSorts sorts).Covered covers := by
  induction f using Formula.induction with
  | bool | int | var => trivial
  | unknown pending name => exact covered.imp_right renames_instantiateSortsEntries
  | unary op f induction | measure sort name f induction => exact induction covered
  | binary op f g first second => exact covered.imp first second
  | ite f g h first second third => exact covered.imp first (And.imp second third)

end Formula

/-! ## Solutions -/

def Valuation.Known (valuation : Valuation) : Prop := ∀ f ∈ valuation, Formula.Known f

def Solution.Known (solution : Solution) : Prop :=
  ∀ unknown valuation, solution.find? unknown = some valuation → valuation.Known

theorem Formula.Covered.known_applySolution {covers : String → Prop} {solution : Solution}
    (known : solution.Known)
    (total : ∀ unknown, covers unknown → solution.contains unknown = true) {f : Formula}
    (covered : f.Covered covers) : (f.applySolution solution).Known := by
  induction f using Formula.induction with
  | bool | int | var => rfl
  | unknown pending name =>
      rw [applySolution]
      cases found : solution.find? name with
      | none =>
          have contained := total name covered.1
          rw [SortedMap.contains, found] at contained
          cases contained
      | some valuation =>
          apply known_iff_covered.mpr
          apply Covered.substitute _ covered.2
          exact covered_conjunction fun f member =>
            Known.covered (known name valuation found f member)
  | unary op f induction | measure sort name f induction => exact induction covered
  | binary op f g first second =>
      exact List.append_eq_nil_iff.mpr (covered.imp first second)
  | ite f g h first second third =>
      exact List.append_eq_nil_iff.mpr (covered.imp first fun branches =>
        List.append_eq_nil_iff.mpr (branches.imp second third))

end Inhabit
