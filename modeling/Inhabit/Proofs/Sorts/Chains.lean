import Inhabit.Formula.Substitution
import Inhabit.Proofs.Collections.Ranks

/-! Sorts that are followed from variable to variable. Where no variable leads back to
itself, an assigned one is instantiated as what it is assigned. -/

namespace Inhabit

def LogicSort.IsOpen (sorts : SortAssignment) (sort : LogicSort) : Prop :=
  ∀ name, sort = .var name → sorts.find? name = none

namespace SortAssignment

variable {sorts : SortAssignment}

def Refers (sorts : SortAssignment) (name other : String) : Prop :=
  sorts.find? name = some (.var other)

def Acyclic (sorts : SortAssignment) : Prop :=
  ∀ name, ¬ Relation.TransGen sorts.Refers name name

theorem acyclic_of_rank (rank : String → Nat)
    (falls : ∀ name other, sorts.Refers name other → rank other < rank name) :
    sorts.Acyclic :=
  not_transGen_self_of_rank rank falls

theorem Acyclic.mono {first later : SortAssignment} (acyclic : later.Acyclic)
    (longer : ∀ name sort, first.find? name = some sort → later.find? name = some sort) :
    first.Acyclic :=
  fun name cycle => acyclic name (Relation.TransGen.mono (fun _ _ => longer _ _) _ _ cycle)

theorem Acyclic.exists_rank (acyclic : sorts.Acyclic) :
    ∃ rank : String → Nat,
      (∀ name other, sorts.Refers name other → rank other < rank name) ∧
      (∀ name, rank name ≤ sorts.size) ∧
      ∀ name sort, sorts.find? name = some sort → 0 < rank name :=
  SortedMap.exists_rank sorts (fun _ _ refers => ⟨_, refers⟩) acyclic

theorem Acyclic.induction (acyclic : sorts.Acyclic) {motive : LogicSort → Prop}
    (isOpen : ∀ sort : LogicSort, sort.IsOpen sorts → motive sort)
    (assigned : ∀ name sort, sorts.find? name = some sort → motive sort →
      motive (.var name)) (sort : LogicSort) : motive sort := by
  obtain ⟨rank, falls, _, _⟩ := acyclic.exists_rank
  have vars (name : String) : motive (.var name) := by
    induction measure : rank name using Nat.strong_induction_on generalizing name with
    | _ n induction =>
        cases found : sorts.find? name with
        | none => exact isOpen _ fun other same => by cases same; exact found
        | some sort =>
            refine assigned name sort found ?_
            cases sort with
            | var other => exact induction _ (measure ▸ falls name other found) other rfl
            | bool | int | data _ => exact isOpen _ nofun
  cases sort with
  | var name => exact vars name
  | bool | int | data _ => exact isOpen _ nofun

end SortAssignment

namespace LogicSort

variable {sorts : SortAssignment}

theorem followWithin_of_open {sort : LogicSort} (isOpen : sort.IsOpen sorts) (links : Nat) :
    sort.followWithin sorts links = sort := by
  cases sort with
  | bool | int | data _ => cases links <;> rfl
  | var name =>
      cases links with
      | zero => rfl
      | succ links => rw [followWithin, isOpen name rfl]

theorem instantiate_of_open {sort : LogicSort} (isOpen : sort.IsOpen sorts) :
    sort.instantiate sorts = sort :=
  followWithin_of_open isOpen _

theorem followWithin_stable {rank : String → Nat}
    (falls : ∀ name other, sorts.Refers name other → rank other < rank name)
    (positive : ∀ name sort, sorts.find? name = some sort → 0 < rank name)
    (links : Nat) (sort : LogicSort) (enough : ∀ name, sort = .var name → rank name ≤ links) :
    sort.followWithin sorts (links + 1) = sort.followWithin sorts links := by
  induction links generalizing sort with
  | zero =>
      refine followWithin_of_open (fun name same => ?_) 1
      rw [Option.eq_none_iff_forall_ne_some]
      intro next found
      have := positive name next found
      have := enough name same
      omega
  | succ links induction =>
      cases sort with
      | bool | int | data _ => rfl
      | var name =>
          rw [followWithin, followWithin]
          cases found : sorts.find? name with
          | none => rfl
          | some next =>
              refine induction next fun other same => ?_
              have := falls name other (found.trans (congrArg some same))
              have := enough name rfl
              omega

theorem instantiate_of_assigned (acyclic : sorts.Acyclic) {name : String} {sort : LogicSort}
    (found : sorts.find? name = some sort) :
    (LogicSort.var name).instantiate sorts = sort.instantiate sorts := by
  obtain ⟨rank, falls, bounded, positive⟩ := acyclic.exists_rank
  have rankBound := bounded name
  have rankPositive := positive name sort found
  obtain ⟨links, size⟩ : ∃ links, sorts.size = links + 1 := ⟨sorts.size - 1, by omega⟩
  rw [instantiate, instantiate, size, followWithin, found]
  refine (followWithin_stable falls positive links sort fun other same => ?_).symm
  have := falls name other (found.trans (congrArg some same))
  omega

theorem instantiate_eq_or_assigned (acyclic : sorts.Acyclic) (sort : LogicSort) :
    sort.instantiate sorts = sort ∨ ∃ name, sorts.find? name = some (sort.instantiate sorts) := by
  induction sort using acyclic.induction with
  | isOpen sort isOpen => exact .inl (instantiate_of_open isOpen)
  | assigned name sort found induction =>
      rw [instantiate_of_assigned acyclic found]
      rcases induction with same | assigned
      · exact .inr ⟨name, same.symm ▸ found⟩
      · exact .inr assigned

theorem instantiate_instantiate {first later : SortAssignment} (acyclic : later.Acyclic)
    (longer : ∀ name sort, first.find? name = some sort → later.find? name = some sort)
    (sort : LogicSort) : (sort.instantiate first).instantiate later = sort.instantiate later := by
  have shorter := acyclic.mono longer
  induction sort using shorter.induction with
  | isOpen sort isOpen => rw [instantiate_of_open isOpen]
  | assigned name sort found induction =>
      rw [instantiate_of_assigned shorter found, induction,
        instantiate_of_assigned acyclic (longer name sort found)]

theorem open_instantiate (acyclic : sorts.Acyclic) (sort : LogicSort) :
    (sort.instantiate sorts).IsOpen sorts := by
  induction sort using acyclic.induction with
  | isOpen sort isOpen => rwa [instantiate_of_open isOpen]
  | assigned name sort found induction => rwa [instantiate_of_assigned acyclic found]

end LogicSort

end Inhabit
