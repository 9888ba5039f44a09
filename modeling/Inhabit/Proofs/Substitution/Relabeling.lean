import Inhabit.Proofs.Sorts.Formulas

/-! Changes to formulas that a substitution does not notice.

A substitution goes by the names of variables. What changes anything else about a formula,
such as its sorts or the names of its unknowns, can be done before the substitution or
after it, if it is done to the replacements as well. What is pending for an unknown takes
up the substitution, and so the law for formulas is at the same time one for
compositions. -/

namespace Inhabit

/-- A change that goes through a formula and what is pending in it, and that leaves the names
of variables alone. -/
structure Formula.Relabels (transform : Formula → Formula) : Prop where
  bool : ∀ value, transform (.bool value) = .bool value
  int : ∀ value, transform (.int value) = .int value
  var : ∀ sort name, ∃ other, transform (.var sort name) = .var other name
  unknown : ∀ name, ∃ other, ∀ pending, transform (.unknown pending name) =
    .unknown (Entries.mapValues transform pending) other
  unary : ∀ op f, transform (.unary op f) = .unary op (transform f)
  binary : ∀ op f g, transform (.binary op f g) = .binary op (transform f) (transform g)
  ite : ∀ f g h, transform (.ite f g h) = .ite (transform f) (transform g) (transform h)
  measure : ∀ sort name, ∃ other, ∀ f, transform (.measure sort name f) =
    .measure other name (transform f)

namespace Substitution

theorem mapValues_extend (transform : Formula → Formula) (first later : Substitution) :
    Entries.mapValues transform (first.extend later) =
      extend (Entries.mapValues transform first) (Entries.mapValues transform later) := by
  unfold extend
  induction later generalizing first with
  | nil => rfl
  | cons entry rest induction =>
      have parts : Entries.mapValues transform (entry :: rest) =
          (entry.1, transform entry.2) :: Entries.mapValues transform rest := rfl
      rw [parts, List.foldl_cons, List.foldl_cons, induction]
      dsimp only
      rw [Entries.find?_mapValues, Option.isSome_map]
      split
      · rfl
      · rw [Entries.mapValues_insert]

variable {transform : Formula → Formula}

theorem mapValues_compose_of_commutes {first later : Substitution}
    (commutes : ∀ entry ∈ first, transform (entry.2.substitute later) =
      (transform entry.2).substitute (Entries.mapValues transform later)) :
    Entries.mapValues transform (first.compose later) =
      compose (Entries.mapValues transform first) (Entries.mapValues transform later) := by
  rw [compose, compose, mapValues_extend, Formula.substituteEntries_eq_map,
    Formula.substituteEntries_eq_map]
  congr 1
  simp only [Entries.mapValues, List.map_map]
  exact List.map_congr_left fun entry member => Prod.ext rfl (commutes entry member)

end Substitution

namespace Formula.Relabels

variable {transform : Formula → Formula}

theorem substitute (relabels : Relabels transform) (f : Formula)
    (substitution : Substitution) :
    transform (f.substitute substitution) =
      (transform f).substitute (Entries.mapValues transform substitution) := by
  induction f using Formula.deepInduction with
  | bool value => rw [Formula.substitute, relabels.bool, Formula.substitute]
  | int value => rw [Formula.substitute, relabels.int, Formula.substitute]
  | var sort name =>
      obtain ⟨other, changed⟩ := relabels.var sort name
      rw [changed, Formula.substitute, Formula.substitute, Entries.find?_mapValues]
      cases Entries.find? name substitution with
      | none => exact changed
      | some replacement => rfl
  | unknown pending name induction =>
      obtain ⟨other, changed⟩ := relabels.unknown name
      have composed := Substitution.mapValues_compose_of_commutes induction
      calc transform ((Formula.unknown pending name).substitute substitution)
          = .unknown (Entries.mapValues transform
              (Substitution.compose pending substitution)) other := changed _
        _ = .unknown (Substitution.compose (Entries.mapValues transform pending)
              (Entries.mapValues transform substitution)) other := by rw [composed]
        _ = (transform (.unknown pending name)).substitute
              (Entries.mapValues transform substitution) := by rw [changed]; rfl
  | unary op f induction =>
      rw [Formula.substitute, relabels.unary, relabels.unary, Formula.substitute, induction]
  | binary op f g left right =>
      rw [Formula.substitute, relabels.binary, relabels.binary, Formula.substitute, left, right]
  | ite f g h condition thenTerm elseTerm =>
      rw [Formula.substitute, relabels.ite, relabels.ite, Formula.substitute, condition,
        thenTerm, elseTerm]
  | measure sort name f induction =>
      obtain ⟨other, changed⟩ := relabels.measure sort name
      rw [Formula.substitute, changed, changed, Formula.substitute, induction]

theorem compose (relabels : Relabels transform) (first later : Substitution) :
    Entries.mapValues transform (first.compose later) =
      Substitution.compose (Entries.mapValues transform first)
        (Entries.mapValues transform later) :=
  Substitution.mapValues_compose_of_commutes fun entry _ => relabels.substitute entry.2 later

end Formula.Relabels

end Inhabit
