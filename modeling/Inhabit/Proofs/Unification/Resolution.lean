import Inhabit.Proofs.Collections.Ranks
import Inhabit.Proofs.Unification.Erasure
import Mathlib

/-! Assignments without cycles. Following one to the end is a substitution that
leaves no assigned variable behind, and a substitution that gives every assigned
variable what its type says does not notice whether the assignment has been
applied. -/

namespace Inhabit

/-! ## The empty assignment -/

theorem LogicSort.instantiate_empty (sort : LogicSort) : sort.instantiate ∅ = sort := by
  cases sort <;> rfl

namespace Formula

mutual

theorem instantiateSorts_empty : ∀ f : Formula, f.instantiateSorts ∅ = f
  | .bool _ | .int _ => rfl
  | .var sort name => by rw [instantiateSorts, LogicSort.instantiate_empty]
  | .unknown pending name => by rw [instantiateSorts, instantiateSortsEntries_empty]
  | .unary op f => by rw [instantiateSorts, instantiateSorts_empty]
  | .binary op f g => by
      rw [instantiateSorts, instantiateSorts_empty, instantiateSorts_empty]
  | .ite f g h => by
      rw [instantiateSorts, instantiateSorts_empty, instantiateSorts_empty,
        instantiateSorts_empty]
  | .measure sort name f => by
      rw [instantiateSorts, LogicSort.instantiate_empty, instantiateSorts_empty]

theorem instantiateSortsEntries_empty : ∀ entries : List (String × Formula),
    instantiateSortsEntries ∅ entries = entries
  | [] => rfl
  | (name, f) :: rest => by
      rw [instantiateSortsEntries, instantiateSorts_empty, instantiateSortsEntries_empty]

end

end Formula

namespace TypeAssignment

@[simp] theorem applyFormula_empty (f : Formula) :
    (∅ : TypeAssignment).applyFormula f = f :=
  f.instantiateSorts_empty

@[simp] theorem apply_empty (t : RefinedType) : (∅ : TypeAssignment).apply t = t := by
  change t.instantiate ∅ (∅ : TypeAssignment).resolve = t
  induction t using Skeleton.induction with
  | scalar base arguments refinement induction =>
      have same : arguments.map (RefinedType.instantiate ∅ (∅ : TypeAssignment).resolve) =
          arguments := (List.map_congr_left induction).trans (List.map_id _)
      cases base with
      | typeVar name =>
          cases arguments with
          | nil =>
              simp only [RefinedType.instantiate, Formula.instantiateSorts_empty]
              rfl
          | cons head rest =>
              rw [RefinedType.instantiate, RefinedType.instantiateAll_eq_map, same,
                Formula.instantiateSorts_empty]
              simp
      | bool | int | data _ =>
          rw [RefinedType.instantiate, RefinedType.instantiateAll_eq_map, same,
            Formula.instantiateSorts_empty]
          simp
  | function name argument result first second =>
      rw [RefinedType.instantiate, first, second]

end TypeAssignment

/-! ## Assignments without cycles -/

namespace TypeAssignment

variable {assignment : TypeAssignment}

def Refers (assignment : TypeAssignment) (name other : String) : Prop :=
  ∃ t, assignment.find? name = some t ∧ other ∈ t.toTerm.vars

def Acyclic (assignment : TypeAssignment) : Prop :=
  ∀ name, ¬ Relation.TransGen assignment.Refers name name

def image (assignment : TypeAssignment) : String → TypeTerm :=
  RefinedType.imageTerm assignment.resolve

/-- The substitution gives every assigned variable what its type says. -/
def Respects (assignment : TypeAssignment) (unifier : String → TypeTerm) : Prop :=
  ∀ name t, assignment.find? name = some t → unifier name = t.toTerm.substitute unifier

theorem toTerm_apply (assignment : TypeAssignment) (t : RefinedType) :
    (assignment.apply t).toTerm = t.toTerm.substitute assignment.image :=
  RefinedType.toTerm_instantiate _ _ t

/-! ## Ranks -/

theorem acyclic_of_rank (rank : String → Nat)
    (falls : ∀ name other, assignment.Refers name other → rank other < rank name) :
    assignment.Acyclic :=
  not_transGen_self_of_rank rank falls

theorem acyclic_of_entries (rank : String → Nat)
    (falls : ∀ entry ∈ assignment.entries, ∀ other ∈ entry.2.toTerm.vars,
      rank other < rank entry.1) : assignment.Acyclic :=
  acyclic_of_rank rank fun _ other ⟨_, found, occurs⟩ =>
    falls _ (SortedMap.mem_entries_of_find? found) other occurs

theorem Acyclic.exists_rank (acyclic : assignment.Acyclic) :
    ∃ rank : String → Nat,
      (∀ name other, assignment.Refers name other → rank other < rank name) ∧
      (∀ name, rank name ≤ assignment.size) ∧
      ∀ name t, assignment.find? name = some t → 0 < rank name :=
  SortedMap.exists_rank assignment (fun _ _ refers => refers.imp fun _ => And.left) acyclic

/-! ## Following an assignment to the end -/

theorem resolveWithin_of_unassigned {name : String}
    (unassigned : assignment.find? name = none) (sorts : SortAssignment) (links : Nat) :
    assignment.resolveWithin sorts links name = none := by
  cases links with
  | zero => rfl
  | succ links => rw [resolveWithin, unassigned, Option.map_none]

/-- What holds of an assigned type once its variables have been replaced by types of which
it holds, holds of whatever is reached by following the assignment. -/
theorem forall_resolveWithin (property : String → RefinedType → Prop) {sorts : SortAssignment}
    (step : ∀ name t, assignment.find? name = some t → ∀ image : String → Option RefinedType,
      (∀ other u, image other = some u → property other u) →
        property name (t.instantiate sorts image))
    (links : Nat) :
    ∀ name t, assignment.resolveWithin sorts links name = some t → property name t := by
  induction links with
  | zero => exact nofun
  | succ links induction =>
      intro name t resolved
      rw [resolveWithin, Option.map_eq_some_iff] at resolved
      obtain ⟨assigned, found, rfl⟩ := resolved
      exact step name assigned found _ induction

private def imageWithin (assignment : TypeAssignment) (links : Nat) :
    String → TypeTerm :=
  RefinedType.imageTerm (assignment.resolveWithin assignment.sorts links)

private theorem imageWithin_of_unassigned {name : String}
    (unassigned : assignment.find? name = none) (links : Nat) :
    assignment.imageWithin links name = .var name := by
  cases links <;> simp [imageWithin, RefinedType.imageTerm, resolveWithin, unassigned]

private theorem imageWithin_succ {name : String} {t : RefinedType}
    (found : assignment.find? name = some t) (links : Nat) :
    assignment.imageWithin (links + 1) name =
      t.toTerm.substitute (assignment.imageWithin links) := by
  simp [imageWithin, RefinedType.imageTerm, resolveWithin, found]
  exact RefinedType.toTerm_instantiate _ _ t

private theorem resolveWithin_stable {rank : String → Nat}
    (falls : ∀ name other, assignment.Refers name other → rank other < rank name)
    (positive : ∀ name t, assignment.find? name = some t → 0 < rank name)
    (sorts : SortAssignment) (links : Nat) (name : String) (enough : rank name ≤ links) :
    assignment.resolveWithin sorts (links + 1) name =
      assignment.resolveWithin sorts links name := by
  induction links generalizing name with
  | zero =>
      cases found : assignment.find? name with
      | none => simp [resolveWithin, found]
      | some t => exact absurd (positive name t found) (by omega)
  | succ links induction =>
      rw [resolveWithin, resolveWithin]
      cases found : assignment.find? name with
      | none => rfl
      | some t =>
          refine congrArg some (RefinedType.instantiate_congr fun other occurs => ?_)
          have := falls name other ⟨t, found, occurs⟩
          exact induction other (by omega)

/-- Without cycles, no way is longer than the assignment has entries. -/
theorem Acyclic.resolveWithin_of_size_le (acyclic : assignment.Acyclic) {links : Nat}
    (enough : assignment.size ≤ links) (name : String) :
    assignment.resolveWithin assignment.sorts links name = assignment.resolve name := by
  obtain ⟨rank, falls, bounded, positive⟩ := acyclic.exists_rank
  induction links, enough using Nat.le_induction with
  | base => rfl
  | succ links enough induction =>
      rw [resolveWithin_stable falls positive _ links name ((bounded name).trans enough)]
      exact induction

private theorem imageWithin_stable {rank : String → Nat}
    (falls : ∀ name other, assignment.Refers name other → rank other < rank name)
    (positive : ∀ name t, assignment.find? name = some t → 0 < rank name)
    (links : Nat) (name : String) (enough : rank name ≤ links) :
    assignment.imageWithin (links + 1) name = assignment.imageWithin links name := by
  rw [imageWithin, imageWithin, RefinedType.imageTerm, RefinedType.imageTerm,
    resolveWithin_stable falls positive _ links name enough]

theorem image_of_unassigned {name : String}
    (unassigned : assignment.find? name = none) : assignment.image name = .var name :=
  imageWithin_of_unassigned unassigned _

theorem Acyclic.respects_image (acyclic : assignment.Acyclic) :
    assignment.Respects assignment.image := by
  intro name t found
  obtain ⟨rank, falls, bounded, positive⟩ := acyclic.exists_rank
  have rankBound := bounded name
  have rankPositive := positive name t found
  obtain ⟨links, size⟩ : ∃ links, assignment.size = links + 1 :=
    ⟨assignment.size - 1, by omega⟩
  have unfolded : ∀ other, assignment.image other =
      assignment.imageWithin (links + 1) other := fun other => by
    rw [← size]
    rfl
  rw [unfolded name, imageWithin_succ found]
  refine TypeTerm.substitute_congr fun other occurs => ?_
  rw [unfolded other]
  refine (imageWithin_stable falls positive links other ?_).symm
  have := falls name other ⟨t, found, occurs⟩
  omega

theorem Acyclic.find?_of_mem_image (acyclic : assignment.Acyclic) {name other : String}
    (occurs : other ∈ (assignment.image name).vars) :
    assignment.find? other = none := by
  obtain ⟨rank, falls, _, _⟩ := acyclic.exists_rank
  induction measure : rank name using Nat.strong_induction_on generalizing name with
  | _ n induction =>
      cases found : assignment.find? name with
      | none =>
          rw [image_of_unassigned found, TypeTerm.vars_var, List.mem_singleton] at occurs
          rw [occurs, found]
      | some t =>
          rw [acyclic.respects_image name t found,
            TypeTerm.mem_vars_substitute] at occurs
          rcases occurs with ⟨middle, inside, occurs⟩
          exact induction (rank middle)
            (measure ▸ falls name middle ⟨t, found, inside⟩) occurs rfl

theorem Acyclic.find?_of_mem_apply (acyclic : assignment.Acyclic) {t : RefinedType}
    {name : String} (occurs : name ∈ (assignment.apply t).toTerm.vars) :
    assignment.find? name = none := by
  rw [toTerm_apply, TypeTerm.mem_vars_substitute] at occurs
  rcases occurs with ⟨middle, _, occurs⟩
  exact acyclic.find?_of_mem_image occurs

theorem Acyclic.substitute_image (acyclic : assignment.Acyclic)
    {unifier : String → TypeTerm} (respects : assignment.Respects unifier)
    (name : String) : (assignment.image name).substitute unifier = unifier name := by
  obtain ⟨rank, falls, _, _⟩ := acyclic.exists_rank
  induction measure : rank name using Nat.strong_induction_on generalizing name with
  | _ n induction =>
      cases found : assignment.find? name with
      | none => rw [image_of_unassigned found, TypeTerm.substitute_var]
      | some t =>
          rw [acyclic.respects_image name t found, TypeTerm.substitute_substitute,
            respects name t found]
          refine TypeTerm.substitute_congr fun other occurs => ?_
          exact induction (rank other)
            (measure ▸ falls name other ⟨t, found, occurs⟩) other rfl

theorem Acyclic.toTerm_apply_substitute (acyclic : assignment.Acyclic)
    {unifier : String → TypeTerm} (respects : assignment.Respects unifier)
    (t : RefinedType) :
    (assignment.apply t).toTerm.substitute unifier = t.toTerm.substitute unifier := by
  rw [toTerm_apply, TypeTerm.substitute_substitute]
  exact TypeTerm.substitute_congr fun name _ => acyclic.substitute_image respects name

/-- Every substitution for the unassigned variables extends to one that respects
the assignment. -/
theorem Acyclic.respects_extension (acyclic : assignment.Acyclic)
    (unifier : String → TypeTerm) :
    assignment.Respects fun name => (assignment.image name).substitute unifier := by
  intro name t found
  change (assignment.image name).substitute unifier = _
  rw [acyclic.respects_image name t found, TypeTerm.substitute_substitute]

theorem Acyclic.mem_image_of_reach (acyclic : assignment.Acyclic)
    {name other : String} (reach : Relation.ReflTransGen assignment.Refers name other)
    (unassigned : assignment.find? other = none) :
    other ∈ (assignment.image name).vars := by
  induction reach using Relation.ReflTransGen.head_induction_on with
  | refl => simp [image_of_unassigned unassigned]
  | head step _ induction =>
      obtain ⟨t, found, occurs⟩ := step
      rw [acyclic.respects_image _ t found, TypeTerm.mem_vars_substitute]
      exact ⟨_, occurs, induction⟩

/-! ## One more variable -/

theorem refers_insert {name : String} {t : RefinedType} {first second : String}
    (refers : Refers (assignment.insert name t) first second) :
    first = name ∧ second ∈ t.toTerm.vars ∨ assignment.Refers first second := by
  obtain ⟨type, found, occurs⟩ := refers
  rw [SortedMap.find?_insert] at found
  by_cases same : first = name
  · rw [if_pos same, Option.some_inj] at found
    exact .inl ⟨same, found ▸ occurs⟩
  · rw [if_neg same] at found
    exact .inr ⟨type, found, occurs⟩

/-- No cycle arises from a variable that cannot be reached from the type it is
bound to. -/
theorem Acyclic.insert (acyclic : assignment.Acyclic) {name : String} {t : RefinedType}
    (apart : ∀ other ∈ t.toTerm.vars,
      ¬ Relation.ReflTransGen assignment.Refers other name) :
    Acyclic (assignment.insert name t) := by
  classical
  obtain ⟨rank, falls, bounded, _⟩ := acyclic.exists_rank
  -- What reaches the variable is lifted above everything that does not.
  refine acyclic_of_rank (fun other =>
    if Relation.ReflTransGen assignment.Refers other name then
      rank other + assignment.size + 1
    else rank other) fun first second refers => ?_
  rcases refers_insert refers with ⟨rfl, occurs⟩ | refers
  · rw [if_neg (apart second occurs), if_pos Relation.ReflTransGen.refl]
    have := bounded second
    omega
  · have fall := falls first second refers
    by_cases reaches : Relation.ReflTransGen assignment.Refers second name
    · rw [if_pos reaches, if_pos (Relation.ReflTransGen.head refers reaches)]
      omega
    · rw [if_neg reaches]
      split <;> omega

theorem respects_insert_iff {name : String} (isOpen : assignment.find? name = none)
    {t : RefinedType} {unifier : String → TypeTerm} :
    Respects (assignment.insert name t) unifier ↔
      assignment.Respects unifier ∧ unifier name = t.toTerm.substitute unifier := by
  constructor
  · intro respects
    refine ⟨fun other type found => respects other type ?_,
      respects name t (SortedMap.find?_insert_self _ _ _)⟩
    rw [SortedMap.find?_insert, if_neg fun same => ?_]
    · exact found
    · rw [same, isOpen] at found
      cases found
  · rintro ⟨respects, equal⟩ other type found
    rw [SortedMap.find?_insert] at found
    by_cases same : other = name
    · rw [if_pos same, Option.some_inj] at found
      rw [same, ← found]
      exact equal
    · rw [if_neg same] at found
      exact respects other type found

theorem Acyclic.substitute_image_insert (acyclic : assignment.Acyclic) {name : String}
    {t : RefinedType} (isOpen : assignment.find? name = none)
    (longer : Acyclic (assignment.insert name t)) (u : TypeTerm) :
    u.substitute (image (assignment.insert name t)) =
      (u.substitute assignment.image).substitute
        (image (assignment.insert name t)) := by
  have respects := ((respects_insert_iff isOpen).mp longer.respects_image).1
  rw [TypeTerm.substitute_substitute]
  exact TypeTerm.substitute_congr fun other _ =>
    (acyclic.substitute_image respects other).symm

theorem size_insert {name : String} (isOpen : assignment.find? name = none)
    (t : RefinedType) : (assignment.insert name t).size = assignment.size + 1 := by
  obtain ⟨entries, increasing⟩ := assignment
  change Entries.find? name entries = none at isOpen
  change (Entries.insert name t entries).length = entries.length + 1
  clear increasing
  induction entries with
  | nil => rfl
  | cons head rest induction =>
      obtain ⟨other, old⟩ := head
      cases order : compare name other with
      | lt => simp [Entries.insert, order]
      | eq => simp [Entries.find?, order] at isOpen
      | gt =>
          rw [Entries.find?, if_neg (by simp [order])] at isOpen
          simp [Entries.insert, order, induction isOpen]

theorem Acyclic.mem_vars_apply (acyclic : assignment.Acyclic) {t : RefinedType}
    {name : String} (occurs : name ∈ (assignment.apply t).toTerm.vars) :
    name ∈ t.toTerm.vars ∨ ∃ other type, assignment.find? other = some type ∧
      name ∈ type.toTerm.vars := by
  rw [toTerm_apply, TypeTerm.mem_vars_substitute] at occurs
  obtain ⟨start, inside, occurs⟩ := occurs
  obtain ⟨rank, falls, _, _⟩ := acyclic.exists_rank
  induction measure : rank start using Nat.strong_induction_on generalizing start t with
  | _ n induction =>
      cases found : assignment.find? start with
      | none =>
          rw [image_of_unassigned found, TypeTerm.vars_var, List.mem_singleton] at occurs
          exact .inl (occurs ▸ inside)
      | some type =>
          rw [acyclic.respects_image start type found,
            TypeTerm.mem_vars_substitute] at occurs
          obtain ⟨middle, within, occurs⟩ := occurs
          have further := induction (rank middle)
            (measure ▸ falls start middle ⟨type, found, within⟩) (t := type) middle
            within occurs rfl
          exact .inr (further.elim (fun inType => ⟨start, type, found, inType⟩) id)

theorem Acyclic.wellKinded_apply (acyclic : assignment.Acyclic)
    (kinds : ∀ name t, assignment.find? name = some t → t.toTerm.WellKinded)
    {t : RefinedType} (kinded : t.toTerm.WellKinded) :
    (assignment.apply t).toTerm.WellKinded := by
  rw [toTerm_apply]
  suffices images : ∀ name, (assignment.image name).WellKinded from
    kinded.substitute fun name _ => images name
  intro name
  obtain ⟨rank, falls, _, _⟩ := acyclic.exists_rank
  induction measure : rank name using Nat.strong_induction_on generalizing name with
  | _ n induction =>
      cases found : assignment.find? name with
      | none =>
          rw [image_of_unassigned found]
          exact .var name
      | some type =>
          rw [acyclic.respects_image name type found]
          exact (kinds name type found).substitute fun other within =>
            induction (rank other) (measure ▸ falls name other ⟨type, found, within⟩)
              other rfl

theorem occursIn_iff {name : String} {t : RefinedType}
    (kinded : (assignment.apply t).toTerm.WellKinded) :
    assignment.occursIn name t = true ↔ name ∈ (assignment.apply t).toTerm.vars := by
  rw [occursIn, SortedSet.contains_iff_mem, Skeleton.typeVars, SortedSet.mem_ofList,
    Skeleton.typeVarOccurrences_eq_vars kinded]

end TypeAssignment

end Inhabit
