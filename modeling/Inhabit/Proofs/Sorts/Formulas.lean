import Inhabit.Formula.Validity
import Inhabit.Proofs.Solving.Weakening
import Inhabit.Proofs.Unknowns.Formulas
import Mathlib.Data.List.Basic

/-! The sorts that a formula uses, and what becomes of them.

What is pending for an unknown counts, since it becomes part of whatever predicate is
found for it. -/

namespace Inhabit

namespace Formula

/-- Induction that looks into the pending renamings of unknowns. -/
theorem deepInduction {motive : Formula → Prop}
    (bool : ∀ value, motive (.bool value)) (int : ∀ value, motive (.int value))
    (var : ∀ sort name, motive (.var sort name))
    (unknown : ∀ pending name, (∀ entry ∈ pending, motive entry.2) →
      motive (.unknown pending name))
    (unary : ∀ op f, motive f → motive (.unary op f))
    (binary : ∀ op f g, motive f → motive g → motive (.binary op f g))
    (ite : ∀ f g h, motive f → motive g → motive h → motive (.ite f g h))
    (measure : ∀ sort name f, motive f → motive (.measure sort name f)) :
    ∀ f, motive f :=
  @Formula.rec motive (fun entries => ∀ entry ∈ entries, motive entry.2)
    (fun entry => motive entry.2) bool int var unknown unary binary ite measure
    (List.forall_mem_nil _) (fun _ _ first rest => List.forall_mem_cons.mpr ⟨first, rest⟩)
    (fun _ _ => id)

mutual

def sortedOccurrences : Formula → List (LogicSort × String)
  | .bool _ | .int _ => []
  | .var sort name => [(sort, name)]
  | .unknown pending _ => sortedOccurrencesEntries pending
  | .unary _ f => sortedOccurrences f
  | .binary _ f g => sortedOccurrences f ++ sortedOccurrences g
  | .ite f g h => sortedOccurrences f ++ (sortedOccurrences g ++ sortedOccurrences h)
  | .measure sort name f => (sort, name) :: sortedOccurrences f
termination_by structural f => f

def sortedOccurrencesEntries : List (String × Formula) → List (LogicSort × String)
  | [] => []
  | (_, f) :: rest => sortedOccurrences f ++ sortedOccurrencesEntries rest
termination_by structural entries => entries

end

def Uses (f : Formula) (sort : LogicSort) : Prop :=
  sort ∈ f.sortedOccurrences.map Prod.fst

instance (f : Formula) (sort : LogicSort) : Decidable (f.Uses sort) :=
  inferInstanceAs (Decidable (_ ∈ _))

def OfSorts (kind : LogicSort → Prop) (f : Formula) : Prop :=
  ∀ occurrence ∈ f.sortedOccurrences, kind occurrence.1

theorem sortedOccurrencesEntries_eq_flatMap (entries : List (String × Formula)) :
    sortedOccurrencesEntries entries = entries.flatMap fun entry =>
      entry.2.sortedOccurrences := by
  induction entries with
  | nil => rfl
  | cons _ _ induction => exact congrArg (_ ++ ·) induction

section OfSorts

variable {kind wider : LogicSort → Prop} {f : Formula}

theorem ofSorts_iff : f.OfSorts kind ↔ ∀ sort, f.Uses sort → kind sort := by
  constructor
  · intro ofSorts sort uses
    rcases List.mem_map.mp uses with ⟨occurrence, member, rfl⟩
    exact ofSorts occurrence member
  · exact fun all occurrence member => all _ (List.mem_map_of_mem member)

theorem OfSorts.mono (ofSorts : f.OfSorts kind) (widens : ∀ sort, kind sort → wider sort) :
    f.OfSorts wider :=
  fun occurrence member => widens _ (ofSorts occurrence member)

theorem ofSorts_var {sort : LogicSort} {name : String} :
    (Formula.var sort name).OfSorts kind ↔ kind sort :=
  List.forall_mem_singleton

theorem ofSorts_unknown {pending : Substitution} {name : String} :
    (Formula.unknown pending name).OfSorts kind ↔
      ∀ entry ∈ pending, entry.2.OfSorts kind := by
  unfold OfSorts
  rw [sortedOccurrences, sortedOccurrencesEntries_eq_flatMap, List.forall_mem_flatMap]

theorem ofSorts_binary {op : BinaryOp} {left right : Formula} :
    (Formula.binary op left right).OfSorts kind ↔
      left.OfSorts kind ∧ right.OfSorts kind :=
  List.forall_mem_append

theorem ofSorts_ite {condition thenTerm elseTerm : Formula} :
    (Formula.ite condition thenTerm elseTerm).OfSorts kind ↔
      condition.OfSorts kind ∧ thenTerm.OfSorts kind ∧ elseTerm.OfSorts kind :=
  List.forall_mem_append.trans (and_congr_right' List.forall_mem_append)

theorem ofSorts_measure {sort : LogicSort} {name : String} :
    (Formula.measure sort name f).OfSorts kind ↔ kind sort ∧ f.OfSorts kind :=
  List.forall_mem_cons

/-! ## Connectives -/

variable {left right : Formula}

theorem OfSorts.and (first : left.OfSorts kind) (second : right.OfSorts kind) :
    (left.and right).OfSorts kind :=
  and_cases (motive := OfSorts kind) first second (ofSorts_binary.mpr ⟨first, second⟩)

theorem OfSorts.or (first : left.OfSorts kind) (second : right.OfSorts kind) :
    (left.or right).OfSorts kind :=
  or_cases (motive := OfSorts kind) first second (ofSorts_binary.mpr ⟨first, second⟩)

theorem OfSorts.implies (first : left.OfSorts kind) (second : right.OfSorts kind) :
    (left.implies right).OfSorts kind := by
  unfold Formula.implies
  split
  · exact second
  · split
    · exact List.forall_mem_nil _
    · exact ofSorts_binary.mpr ⟨first, second⟩

theorem ofSorts_conjunction {formulas : List Formula}
    (all : ∀ f ∈ formulas, f.OfSorts kind) : (conjunction formulas).OfSorts kind :=
  foldl_closed (motive := OfSorts kind) (fun _ _ => OfSorts.and) (List.forall_mem_nil _) all

theorem ofSorts_disjunction {formulas : List Formula}
    (all : ∀ f ∈ formulas, f.OfSorts kind) : (disjunction formulas).OfSorts kind :=
  foldl_closed (motive := OfSorts kind) (fun _ _ => OfSorts.or) (List.forall_mem_nil _) all

/-! ## Substitution -/

theorem substituteEntries_eq_map (substitution : Substitution)
    (entries : List (String × Formula)) :
    substituteEntries substitution entries =
      entries.map fun entry => (entry.1, entry.2.substitute substitution) := by
  induction entries with
  | nil => rfl
  | cons _ _ induction => exact congrArg (_ :: ·) induction

theorem OfSorts.substitute (ofSorts : f.OfSorts kind) {substitution : Substitution}
    (images : ∀ entry ∈ substitution, entry.2.OfSorts kind) :
    (f.substitute substitution).OfSorts kind := by
  induction f using Formula.deepInduction with
  | bool | int => exact ofSorts
  | var sort name =>
      rw [Formula.substitute]
      cases found : Entries.find? name substitution with
      | none => exact ofSorts
      | some replacement => exact images _ (Entries.mem_of_find? found)
  | unknown pending name induction =>
      rw [ofSorts_unknown] at ofSorts
      rw [Formula.substitute, ofSorts_unknown, substituteEntries_eq_map]
      intro entry member
      rcases Substitution.mem_extend member with own | image
      · rcases List.mem_map.mp own with ⟨entry, inside, rfl⟩
        exact induction entry inside (ofSorts entry inside)
      · exact images entry image
  | unary op f induction => exact induction ofSorts
  | binary op f g first second =>
      exact ofSorts_binary.mpr ((ofSorts_binary.mp ofSorts).imp first second)
  | ite f g h first second third =>
      exact ofSorts_ite.mpr ((ofSorts_ite.mp ofSorts).imp first (And.imp second third))
  | measure sort name f induction =>
      exact ofSorts_measure.mpr ((ofSorts_measure.mp ofSorts).imp_right induction)

/-! ## Sorts -/

theorem instantiateSortsEntries_eq_map (sorts : SortAssignment)
    (entries : List (String × Formula)) :
    instantiateSortsEntries sorts entries =
      entries.map fun entry => (entry.1, entry.2.instantiateSorts sorts) := by
  induction entries with
  | nil => rfl
  | cons _ _ induction => exact congrArg (_ :: ·) induction

mutual

def mapSorts (transform : LogicSort → LogicSort) : Formula → Formula
  | .bool value => .bool value
  | .int value => .int value
  | .var sort name => .var (transform sort) name
  | .unknown pending name => .unknown (mapSortsEntries transform pending) name
  | .unary op f => .unary op (mapSorts transform f)
  | .binary op f g => .binary op (mapSorts transform f) (mapSorts transform g)
  | .ite f g h =>
      .ite (mapSorts transform f) (mapSorts transform g) (mapSorts transform h)
  | .measure sort name f => .measure (transform sort) name (mapSorts transform f)
termination_by structural f => f

def mapSortsEntries (transform : LogicSort → LogicSort) :
    List (String × Formula) → List (String × Formula)
  | [] => []
  | (name, f) :: rest => (name, mapSorts transform f) :: mapSortsEntries transform rest
termination_by structural entries => entries

end

theorem mapSortsEntries_eq_map (transform : LogicSort → LogicSort)
    (entries : List (String × Formula)) :
    mapSortsEntries transform entries =
      entries.map fun entry => (entry.1, entry.2.mapSorts transform) := by
  induction entries with
  | nil => rfl
  | cons _ _ induction => exact congrArg (_ :: ·) induction

theorem mapSorts_mapSorts (first second : LogicSort → LogicSort) (f : Formula) :
    (f.mapSorts first).mapSorts second = f.mapSorts fun sort => second (first sort) := by
  induction f using Formula.deepInduction with
  | bool | int | var => rfl
  | unknown pending name induction =>
      simp only [mapSorts, mapSortsEntries_eq_map, List.map_map]
      exact congrArg (Formula.unknown · name) (List.map_congr_left fun entry member =>
        Prod.ext rfl (induction entry member))
  | unary op f induction => exact congrArg (Formula.unary op) induction
  | binary op f g left right => exact congrArg₂ (Formula.binary op) left right
  | ite f g h condition thenTerm elseTerm =>
      simp only [mapSorts, condition, thenTerm, elseTerm]
  | measure sort name f induction => exact congrArg (Formula.measure _ name) induction

theorem instantiateSorts_eq_mapSorts (sorts : SortAssignment) (f : Formula) :
    f.instantiateSorts sorts = f.mapSorts fun sort => sort.instantiate sorts := by
  induction f using Formula.deepInduction with
  | bool | int | var => rfl
  | unknown pending name induction =>
      rw [instantiateSorts, mapSorts, instantiateSortsEntries_eq_map, mapSortsEntries_eq_map]
      exact congrArg (Formula.unknown · name) (List.map_congr_left fun entry member =>
        Prod.ext rfl (induction entry member))
  | unary op f induction => exact congrArg (Formula.unary op) induction
  | binary op f g left right => exact congrArg₂ (Formula.binary op) left right
  | ite f g h condition thenTerm elseTerm =>
      rw [instantiateSorts, mapSorts, condition, thenTerm, elseTerm]
  | measure sort name f induction => exact congrArg (Formula.measure _ name) induction

theorem sortedOccurrences_instantiateSorts (sorts : SortAssignment) (f : Formula) :
    (f.instantiateSorts sorts).sortedOccurrences =
      f.sortedOccurrences.map fun occurrence =>
        (occurrence.1.instantiate sorts, occurrence.2) := by
  induction f using Formula.deepInduction with
  | bool | int | var => rfl
  | unknown pending name induction =>
      rw [instantiateSorts, sortedOccurrences, sortedOccurrences,
        instantiateSortsEntries_eq_map, sortedOccurrencesEntries_eq_flatMap,
        sortedOccurrencesEntries_eq_flatMap, List.flatMap_map, List.map_flatMap]
      exact List.flatMap_congr induction
  | unary op f induction => exact induction
  | binary op f g first second =>
      rw [instantiateSorts, sortedOccurrences, sortedOccurrences, List.map_append, first,
        second]
  | ite f g h first second third =>
      rw [instantiateSorts, sortedOccurrences, sortedOccurrences, List.map_append,
        List.map_append, first, second, third]
  | measure sort name f induction =>
      rw [instantiateSorts, sortedOccurrences, sortedOccurrences, List.map_cons, induction]

/-- Only one instantiation of the sorts makes a given formula of a formula. -/
theorem ofSorts_of_instantiateSorts_eq {first second : SortAssignment}
    (equal : f.instantiateSorts first = f.instantiateSorts second) :
    f.OfSorts fun sort => sort.instantiate first = sort.instantiate second := by
  have occurrences := congrArg sortedOccurrences equal
  rw [sortedOccurrences_instantiateSorts, sortedOccurrences_instantiateSorts,
    List.map_inj_left] at occurrences
  exact fun occurrence member => congrArg Prod.fst (occurrences occurrence member)

theorem ofSorts_instantiateSorts {sorts : SortAssignment}
    (reached : ∀ sort : LogicSort, kind (sort.instantiate sorts)) (f : Formula) :
    (f.instantiateSorts sorts).OfSorts kind := by
  unfold OfSorts
  rw [sortedOccurrences_instantiateSorts, List.forall_mem_map]
  exact fun _ _ => reached _

theorem instantiateSorts_eq_self {sorts : SortAssignment}
    (fixed : f.OfSorts fun sort => sort.instantiate sorts = sort) :
    f.instantiateSorts sorts = f := by
  induction f using Formula.deepInduction with
  | bool | int => rfl
  | var sort name => rw [instantiateSorts, ofSorts_var.mp fixed]
  | unknown pending name induction =>
      rw [ofSorts_unknown] at fixed
      rw [instantiateSorts, instantiateSortsEntries_eq_map]
      have same : (pending.map fun entry => (entry.1, entry.2.instantiateSorts sorts)) =
          pending.map id :=
        List.map_congr_left fun entry member =>
          Prod.ext rfl (induction entry member (fixed entry member))
      rw [same, List.map_id]
  | unary op f induction => rw [instantiateSorts, induction fixed]
  | binary op f g first second =>
      rcases ofSorts_binary.mp fixed with ⟨left, right⟩
      rw [instantiateSorts, first left, second right]
  | ite f g h first second third =>
      rcases ofSorts_ite.mp fixed with ⟨condition, left, right⟩
      rw [instantiateSorts, first condition, second left, third right]
  | measure sort name f induction =>
      rcases ofSorts_measure.mp fixed with ⟨here, inside⟩
      rw [instantiateSorts, here, induction inside]

@[simp] theorem isTrue_instantiateSorts (sorts : SortAssignment) (f : Formula) :
    (f.instantiateSorts sorts).isTrue = f.isTrue := by
  cases f <;> rfl

@[simp] theorem isFalse_instantiateSorts (sorts : SortAssignment) (f : Formula) :
    (f.instantiateSorts sorts).isFalse = f.isFalse := by
  cases f <;> rfl

theorem instantiateSorts_and (sorts : SortAssignment) (f g : Formula) :
    (f.and g).instantiateSorts sorts =
      (f.instantiateSorts sorts).and (g.instantiateSorts sorts) := by
  simp only [Formula.and, isTrue_instantiateSorts, isFalse_instantiateSorts]
  split
  · rfl
  · split <;> rfl

/-! ## Solutions -/

theorem OfSorts.applySolution (ofSorts : f.OfSorts kind) {solution : Solution}
    (chosen : ∀ unknown, ∀ qualifier ∈ solution.chosen unknown, qualifier.OfSorts kind) :
    (f.applySolution solution).OfSorts kind := by
  induction f using Formula.induction with
  | bool | int | var => exact ofSorts
  | unknown pending name =>
      rw [Formula.applySolution]
      cases found : solution.find? name with
      | none => exact ofSorts
      | some valuation =>
          apply OfSorts.substitute _ (ofSorts_unknown.mp ofSorts)
          apply ofSorts_conjunction
          intro qualifier member
          apply chosen name
          rw [Solution.chosen_eq found]
          exact SortedSet.mem_toList.mp member
  | unary op f induction => exact induction ofSorts
  | binary op f g first second =>
      exact ofSorts_binary.mpr ((ofSorts_binary.mp ofSorts).imp first second)
  | ite f g h first second third =>
      exact ofSorts_ite.mpr ((ofSorts_ite.mp ofSorts).imp first (And.imp second third))
  | measure sort name f induction =>
      exact ofSorts_measure.mpr ((ofSorts_measure.mp ofSorts).imp_right induction)

/-! ## Atoms -/

theorem OfSorts.atoms (ofSorts : f.OfSorts kind) : ∀ atom ∈ f.atoms, atom.OfSorts kind := by
  suffices occurrences : ∀ atom ∈ f.atomOccurrences, atom.OfSorts kind from
    fun atom member => occurrences atom (List.mem_eraseDups.mp member)
  induction f using Formula.induction with
  | bool | int | unknown => exact List.forall_mem_nil _
  | var | measure => exact List.forall_mem_singleton.mpr ofSorts
  | unary op f induction => exact induction ofSorts
  | binary op f g first second =>
      exact List.forall_mem_append.mpr ((ofSorts_binary.mp ofSorts).imp first second)
  | ite f g h first second third =>
      rcases ofSorts_ite.mp ofSorts with ⟨condition, left, right⟩
      exact List.forall_mem_append.mpr ⟨first condition,
        List.forall_mem_append.mpr ⟨second left, third right⟩⟩

end OfSorts

end Formula

end Inhabit
