import Inhabit.Proofs.Collections.Extensionality
import Inhabit.Proofs.Sorts.Formulas

/-! Substitutions one after the other.

What is pending for an unknown is itself composed with every later substitution, so the
law for formulas and the associativity of composition rest on each other: the first asks
for the second at the pending renamings, whose formulas are smaller. -/

namespace Inhabit

theorem Entries.eq_of_find? {κ α : Type} [Ord κ] [Std.TransOrd κ] [Std.LawfulEqOrd κ]
    {left right : List (κ × α)} (leftIncreases : KeysIncrease left)
    (rightIncreases : KeysIncrease right)
    (same : ∀ key, find? key left = find? key right) : left = right := by
  have equal : (⟨left, leftIncreases⟩ : SortedMap κ α) = ⟨right, rightIncreases⟩ :=
    SortedMap.eq_of_find? same
  exact congrArg SortedMap.entries equal

namespace Formula

mutual

/-- Each pending renaming has its variables in order and each of them once, also those
pending inside others. -/
def Ordered : Formula → Prop
  | .bool _ | .int _ | .var _ _ => True
  | .unknown pending _ => KeysIncrease pending ∧ OrderedEntries pending
  | .unary _ f | .measure _ _ f => Ordered f
  | .binary _ f g => Ordered f ∧ Ordered g
  | .ite f g h => Ordered f ∧ Ordered g ∧ Ordered h
termination_by structural f => f

def OrderedEntries : List (String × Formula) → Prop
  | [] => True
  | (_, f) :: rest => Ordered f ∧ OrderedEntries rest
termination_by structural entries => entries

end

mutual

instance decidableOrdered (f : Formula) : Decidable f.Ordered :=
  match f with
  | .bool _ | .int _ | .var _ _ => instDecidableTrue
  | .unknown pending _ =>
      have := decidableOrderedEntries pending
      inferInstanceAs (Decidable (KeysIncrease pending ∧ OrderedEntries pending))
  | .unary _ f | .measure _ _ f => decidableOrdered f
  | .binary _ f g =>
      have := decidableOrdered f
      have := decidableOrdered g
      inferInstanceAs (Decidable (f.Ordered ∧ g.Ordered))
  | .ite f g h =>
      have := decidableOrdered f
      have := decidableOrdered g
      have := decidableOrdered h
      inferInstanceAs (Decidable (f.Ordered ∧ g.Ordered ∧ h.Ordered))
termination_by structural f

instance decidableOrderedEntries (entries : List (String × Formula)) :
    Decidable (OrderedEntries entries) :=
  match entries with
  | [] => instDecidableTrue
  | (_, f) :: rest =>
      have := decidableOrdered f
      have := decidableOrderedEntries rest
      inferInstanceAs (Decidable (f.Ordered ∧ OrderedEntries rest))
termination_by structural entries

end

theorem orderedEntries_iff {entries : List (String × Formula)} :
    OrderedEntries entries ↔ ∀ entry ∈ entries, entry.2.Ordered := by
  induction entries with
  | nil => exact iff_of_true trivial (List.forall_mem_nil _)
  | cons entry rest induction =>
      rw [List.forall_mem_cons, ← induction]
      rfl

end Formula

namespace Substitution

def Ordered (substitution : Substitution) : Prop :=
  KeysIncrease substitution ∧ Formula.OrderedEntries substitution

instance (substitution : Substitution) : Decidable substitution.Ordered :=
  inferInstanceAs (Decidable (_ ∧ _))

variable {substitution first later : Substitution}

theorem ordered_iff :
    substitution.Ordered ↔
      KeysIncrease substitution ∧ ∀ entry ∈ substitution, entry.2.Ordered :=
  and_congr_right' Formula.orderedEntries_iff

/-! ## Extension -/

theorem find?_extend (first later : Substitution) (name : String) :
    Entries.find? name (first.extend later) =
      (Entries.find? name first).or (Entries.find? name later) := by
  induction later generalizing first with
  | nil => exact Option.or_none.symm
  | cons entry rest induction =>
      obtain ⟨other, f⟩ := entry
      cases found : Entries.find? other first with
      | some own =>
          have step : first.extend ((other, f) :: rest) = first.extend rest := by
            rw [extend, List.foldl_cons, found]
            rfl
          rw [step, induction, Entries.find?]
          split
          next same =>
            rw [Std.LawfulEqOrd.eq_of_compare same, found]
            rfl
          next => rfl
      | none =>
          have step : first.extend ((other, f) :: rest) =
              extend (Entries.insert other f first) rest := by
            rw [extend, List.foldl_cons, found]
            rfl
          rw [step, induction, Entries.find?]
          split
          next same =>
            rw [Std.LawfulEqOrd.eq_of_compare same, found, Entries.find?_insert_self]
            rfl
          next differ =>
            have different : name ≠ other := by
              rintro rfl
              exact differ Std.ReflOrd.compare_self
            rw [Entries.find?_insert_of_ne different]

theorem keysIncrease_extend (increasing : KeysIncrease first) (later : Substitution) :
    KeysIncrease (first.extend later) := by
  induction later generalizing first with
  | nil => exact increasing
  | cons entry rest induction =>
      rw [extend, List.foldl_cons]
      split
      · exact induction increasing
      · exact induction (Entries.keysIncrease_insert entry.1 entry.2 increasing)

end Substitution

namespace Formula

theorem substituteEntries_eq_mapValues (substitution : Substitution)
    (entries : List (String × Formula)) :
    substituteEntries substitution entries =
      Entries.mapValues (substitute substitution) entries :=
  substituteEntries_eq_map substitution entries

end Formula

namespace Substitution

variable {first second third later : Substitution}

theorem find?_compose (first later : Substitution) (name : String) :
    Entries.find? name (first.compose later) =
      ((Entries.find? name first).map (Formula.substitute later)).or
        (Entries.find? name later) := by
  rw [compose, find?_extend, Formula.substituteEntries_eq_mapValues,
    Entries.find?_mapValues]

theorem keysIncrease_compose (increasing : KeysIncrease first) (later : Substitution) :
    KeysIncrease (first.compose later) := by
  rw [compose, Formula.substituteEntries_eq_mapValues]
  exact keysIncrease_extend (Entries.keysIncrease_mapValues _ increasing) later

theorem mem_compose {entry : String × Formula} (member : entry ∈ first.compose later) :
    (∃ own ∈ first, entry = (own.1, own.2.substitute later)) ∨ entry ∈ later := by
  rw [compose, Formula.substituteEntries_eq_map] at member
  rcases mem_extend member with own | image
  · rcases List.mem_map.mp own with ⟨entry, inside, rfl⟩
    exact .inl ⟨entry, inside, rfl⟩
  · exact .inr image

theorem ordered_compose (increasing : KeysIncrease first)
    (own : ∀ entry ∈ first, (entry.2.substitute later).Ordered)
    (images : ∀ entry ∈ later, entry.2.Ordered) : (first.compose later).Ordered := by
  refine ordered_iff.mpr ⟨keysIncrease_compose increasing later, ?_⟩
  intro entry member
  rcases mem_compose member with ⟨replaced, inside, rfl⟩ | image
  · exact own replaced inside
  · exact images entry image

/-- Composition is associative where it acts in sequence on what the first puts in. -/
theorem compose_assoc_of_acts (increasing : KeysIncrease first)
    (acts : ∀ entry ∈ first, (entry.2.substitute second).substitute third =
      entry.2.substitute (second.compose third)) :
    (first.compose second).compose third = first.compose (second.compose third) := by
  apply Entries.eq_of_find?
    (keysIncrease_compose (keysIncrease_compose increasing second) third)
    (keysIncrease_compose increasing _)
  intro name
  rw [find?_compose, find?_compose, find?_compose first, find?_compose second]
  cases found : Entries.find? name first with
  | none => rfl
  | some f => exact congrArg some (acts _ (Entries.mem_of_find? found))

end Substitution

namespace Formula

theorem substitute_unknown (substitution pending : Substitution) (name : String) :
    (Formula.unknown pending name).substitute substitution =
      .unknown (pending.compose substitution) name := rfl

theorem substitute_substitute {f : Formula} (ordered : f.Ordered)
    (first later : Substitution) :
    (f.substitute first).substitute later = f.substitute (first.compose later) := by
  induction f using Formula.deepInduction with
  | bool | int => rfl
  | var sort name =>
      rw [substitute, substitute, Substitution.find?_compose]
      cases Entries.find? name first with
      | none => rfl
      | some f => rfl
  | unknown pending name induction =>
      rcases Substitution.ordered_iff.mp ordered with ⟨increasing, inside⟩
      rw [substitute_unknown, substitute_unknown, substitute_unknown,
        Substitution.compose_assoc_of_acts increasing fun entry member =>
          induction entry member (inside entry member)]
  | unary op f induction => exact congrArg (Formula.unary op) (induction ordered)
  | binary op f g left right =>
      exact congrArg₂ (Formula.binary op) (left ordered.1) (right ordered.2)
  | ite f g h condition thenTerm elseTerm =>
      simp only [substitute, condition ordered.1, thenTerm ordered.2.1,
        elseTerm ordered.2.2]
  | measure sort name f induction =>
      exact congrArg (Formula.measure sort name) (induction ordered)

theorem Ordered.substitute {f : Formula} (ordered : f.Ordered)
    {substitution : Substitution}
    (images : ∀ entry ∈ substitution, entry.2.Ordered) :
    (f.substitute substitution).Ordered := by
  induction f using Formula.deepInduction with
  | bool | int => trivial
  | var sort name =>
      rw [Formula.substitute]
      cases found : Entries.find? name substitution with
      | none => trivial
      | some replacement => exact images _ (Entries.mem_of_find? found)
  | unknown pending name induction =>
      rcases Substitution.ordered_iff.mp ordered with ⟨increasing, inside⟩
      exact Substitution.ordered_compose increasing
        (fun entry member => induction entry member (inside entry member)) images
  | unary op f induction | measure sort name f induction => exact induction ordered
  | binary op f g left right => exact ordered.imp left right
  | ite f g h condition thenTerm elseTerm =>
      exact ordered.imp condition (And.imp thenTerm elseTerm)

/-! ## The empty substitution -/

mutual

theorem substitute_nil (f : Formula) : f.substitute [] = f := by
  cases f with
  | bool | int | var => rfl
  | unknown pending name =>
      exact congrArg (Formula.unknown · name) (substituteEntries_nil pending)
  | unary op f => exact congrArg (Formula.unary op) f.substitute_nil
  | binary op f g => exact congrArg₂ (Formula.binary op) f.substitute_nil g.substitute_nil
  | ite f g h =>
      rw [substitute, f.substitute_nil, g.substitute_nil, h.substitute_nil]
  | measure sort name f => exact congrArg (Formula.measure sort name) f.substitute_nil
termination_by structural f

theorem substituteEntries_nil (entries : List (String × Formula)) :
    substituteEntries [] entries = entries := by
  cases entries with
  | nil => rfl
  | cons entry rest =>
      rw [substituteEntries, entry.2.substitute_nil, substituteEntries_nil rest]
termination_by structural entries

end

end Formula

namespace Substitution

variable {first second third later : Substitution}

theorem compose_nil (first : Substitution) : first.compose [] = first :=
  Formula.substituteEntries_nil first

theorem nil_compose (increasing : KeysIncrease later) : compose [] later = later := by
  apply Entries.eq_of_find? (keysIncrease_compose List.Pairwise.nil later) increasing
  intro name
  rw [find?_compose]
  rfl

theorem Ordered.compose (ordered : first.Ordered) (laterOrdered : later.Ordered) :
    (first.compose later).Ordered := by
  rw [ordered_iff] at ordered laterOrdered
  exact ordered_compose ordered.1
    (fun entry member => (ordered.2 entry member).substitute laterOrdered.2) laterOrdered.2

theorem compose_assoc (ordered : first.Ordered) (second third : Substitution) :
    (first.compose second).compose third = first.compose (second.compose third) := by
  rcases ordered_iff.mp ordered with ⟨increasing, inside⟩
  exact compose_assoc_of_acts increasing fun entry member =>
    Formula.substitute_substitute (inside entry member) second third

/-- Ordered substitutions are a monoid under composition, and the monoid acts on ordered
formulas. -/
theorem compose_monoid_action {f : Formula} (ordered : f.Ordered)
    (firstOrdered : first.Ordered) (secondOrdered : second.Ordered)
    (third : Substitution) :
    ((f.substitute first).substitute second = f.substitute (first.compose second) ∧
        (f.substitute first).Ordered) ∧
      (first.compose second).compose third = first.compose (second.compose third) ∧
      (compose [] first = first ∧ first.compose [] = first) ∧
      (first.compose second).Ordered :=
  ⟨⟨Formula.substitute_substitute ordered first second,
      ordered.substitute (ordered_iff.mp firstOrdered).2⟩,
    compose_assoc firstOrdered second third,
    ⟨nil_compose firstOrdered.1, compose_nil first⟩,
    firstOrdered.compose secondOrdered⟩

def nestedPending : Formula :=
  .binary .and (.var .bool "x")
    (.unknown [("a", .unknown [("x", .var .int "y")] "p"), ("y", .var .int "x")] "q")

/-- The pending renamings take up what they have no entries for, at each depth. -/
theorem nestedPending_substituted :
    let first : Substitution := [("x", .unknown [] "r"), ("y", .var .int "z")]
    let second : Substitution := [("x", .int 1), ("z", .int 2)]
    let shared : Formula := .unknown [("x", .int 1), ("z", .int 2)] "r"
    nestedPending.Ordered ∧ first.Ordered ∧ second.Ordered ∧
      first.compose second = [("x", shared), ("y", .int 2), ("z", .int 2)] ∧
      (nestedPending.substitute first).substitute second =
        .binary .and shared
          (.unknown [("a", .unknown [("x", .int 2), ("y", .int 2), ("z", .int 2)] "p"),
            ("x", shared), ("y", shared), ("z", .int 2)] "q") := by
  intro first second shared
  have ordered : nestedPending.Ordered := by decide
  have firstOrdered : first.Ordered := by decide
  have secondOrdered : second.Ordered := by decide
  have composed :
      first.compose second = [("x", shared), ("y", .int 2), ("z", .int 2)] := by decide
  refine ⟨ordered, firstOrdered, secondOrdered, composed, ?_⟩
  rw [(compose_monoid_action ordered firstOrdered secondOrdered []).1.1, composed]
  decide

end Substitution

end Inhabit
