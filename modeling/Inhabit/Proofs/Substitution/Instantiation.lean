import Inhabit.Proofs.Sorts.Chains
import Inhabit.Proofs.Substitution.Relabeling

/-! Substituting before or after sorts are instantiated.

A variable is renamed while its sort is still open, and what it is renamed to has a sort that
may be assigned later as well. Instantiating sorts changes no name, so that it makes no
difference which of the two comes first, for formulas and for what is pending in them. -/

namespace Inhabit

def Substitution.instantiateSorts (sorts : SortAssignment) (substitution : Substitution) :
    Substitution :=
  Entries.mapValues (Formula.instantiateSorts sorts) substitution

namespace Formula

theorem relabels_instantiateSorts (sorts : SortAssignment) :
    Relabels (instantiateSorts sorts) where
  bool _ := rfl
  int _ := rfl
  var sort _ := ⟨sort.instantiate sorts, rfl⟩
  unknown name := ⟨name, fun pending =>
    congrArg (Formula.unknown · name) (instantiateSortsEntries_eq_map sorts pending)⟩
  unary _ _ := rfl
  binary _ _ _ := rfl
  ite _ _ _ := rfl
  measure sort _ := ⟨sort.instantiate sorts, fun _ => rfl⟩

theorem ofSorts_isOpen_instantiateSorts {sorts : SortAssignment} (acyclic : sorts.Acyclic)
    (f : Formula) : (f.instantiateSorts sorts).OfSorts (LogicSort.IsOpen sorts) :=
  ofSorts_instantiateSorts (LogicSort.open_instantiate acyclic) f

end Formula

/-- Substitution and the instantiation of sorts commute, in formulas and in compositions of
substitutions, and where following the sorts ends, none that is assigned is left on either
way. -/
theorem substitution_commutes_with_sorts {sorts : SortAssignment} (acyclic : sorts.Acyclic) :
    (∀ (f : Formula) (substitution : Substitution),
      (f.substitute substitution).instantiateSorts sorts =
          (f.instantiateSorts sorts).substitute (substitution.instantiateSorts sorts) ∧
        ((f.substitute substitution).instantiateSorts sorts).OfSorts
          (LogicSort.IsOpen sorts)) ∧
      ∀ first later : Substitution,
        (first.compose later).instantiateSorts sorts =
          (first.instantiateSorts sorts).compose (later.instantiateSorts sorts) := by
  have relabels := Formula.relabels_instantiateSorts sorts
  refine ⟨fun f substitution => ⟨relabels.substitute f substitution, ?_⟩, relabels.compose⟩
  exact Formula.ofSorts_isOpen_instantiateSorts acyclic _

def lengthAwaited : Formula :=
  .binary .and (.lessThan (.measure (.var "a") "len" (.var (.var "b") "x")) (.int 3))
    (.unknown [("z", .var (.var "a") "x")] "p")

/-- The sort of the replacement reaches the number by two links, also inside an unknown that
the substitution itself brings along and where the composition takes an entry over. -/
theorem lengthAwaited_instantiated :
    let sorts : SortAssignment := .ofList [("a", .var "b"), ("b", .int)]
    let first : Substitution := [("x", .var (.var "a") "y")]
    let later : Substitution :=
      [("y", .measure (.var "b") "half" (.var .int "n")),
        ("z", .unknown [("n", .var (.var "a") "m")] "q")]
    let numbered : Formula :=
      .binary .and (.lessThan (.measure .int "len" (.var .int "y")) (.int 3))
        (.unknown [("x", .var .int "y"), ("z", .var .int "y")] "p")
    let composed : Substitution :=
      [("x", .measure .int "half" (.var .int "n")),
        ("y", .measure .int "half" (.var .int "n")),
        ("z", .unknown [("n", .var .int "m")] "q")]
    sorts.Acyclic ∧ (lengthAwaited.substitute first).instantiateSorts sorts = numbered ∧
      (lengthAwaited.instantiateSorts sorts).substitute (first.instantiateSorts sorts) =
        numbered ∧
      numbered.OfSorts (LogicSort.IsOpen sorts) ∧
      (first.compose later).instantiateSorts sorts = composed ∧
      (first.instantiateSorts sorts).compose (later.instantiateSorts sorts) = composed := by
  intro sorts first later numbered composed
  have acyclic : sorts.Acyclic := by
    apply SortAssignment.acyclic_of_rank fun name => if name = "a" then 1 else 0
    intro name other refers
    have member : (name, LogicSort.var other) ∈ [("a", .var "b"), ("b", .int)] :=
      SortedMap.mem_entries_of_find? refers
    obtain ⟨rfl, rfl⟩ : name = "a" ∧ other = "b" := by simpa using member
    decide
  have late : (lengthAwaited.instantiateSorts sorts).substitute
      (first.instantiateSorts sorts) = numbered := by decide
  have parts : (first.instantiateSorts sorts).compose (later.instantiateSorts sorts) =
      composed := by decide
  obtain ⟨formulas, compositions⟩ := substitution_commutes_with_sorts acyclic
  obtain ⟨commutes, isOpen⟩ := formulas lengthAwaited first
  have early := commutes.trans late
  exact ⟨acyclic, early, late, early ▸ isOpen, (compositions first later).trans parts, parts⟩

end Inhabit
