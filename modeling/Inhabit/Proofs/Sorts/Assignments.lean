import Inhabit.Proofs.Scoping.Extensions
import Inhabit.Proofs.Simplification.Unifiers
import Inhabit.Proofs.Sorts.Chains
import Inhabit.Proofs.Sorts.Formulas
import Inhabit.Proofs.Unknowns.Types

/-! Sorts that an assignment has nothing more to say about.

Where an assignment has no cycles and no type variable carries arguments, following it
ends at such sorts. So whatever is taken out of a scope under an assignment is at settled
sorts: the terms for qualifiers, and the facts. -/

namespace Inhabit

namespace RefinedType

/-! ## Types at sorts of a kind -/

mutual

def OfSorts (kind : LogicSort → Prop) : RefinedType → Prop
  | .scalar _ arguments refinement => refinement.OfSorts kind ∧ OfSortsAll kind arguments
  | .function _ argument result => OfSorts kind argument ∧ OfSorts kind result
termination_by structural t => t

def OfSortsAll (kind : LogicSort → Prop) : List RefinedType → Prop
  | [] => True
  | t :: rest => OfSorts kind t ∧ OfSortsAll kind rest
termination_by structural ts => ts

end

variable {kind wider : LogicSort → Prop}

theorem ofSortsAll_iff {ts : List RefinedType} :
    OfSortsAll kind ts ↔ ∀ t ∈ ts, OfSorts kind t := by
  induction ts with
  | nil => exact iff_of_true trivial (List.forall_mem_nil _)
  | cons _ _ induction => rw [OfSortsAll, induction, List.forall_mem_cons]

theorem ofSorts_scalar {base : BaseType} {arguments : List RefinedType}
    {refinement : Formula} :
    OfSorts kind (.scalar base arguments refinement) ↔
      refinement.OfSorts kind ∧ ∀ t ∈ arguments, OfSorts kind t := by
  rw [OfSorts, ofSortsAll_iff]

theorem OfSorts.mono {t : RefinedType} (ofSorts : t.OfSorts kind)
    (widens : ∀ sort, kind sort → wider sort) : t.OfSorts wider := by
  induction t using Skeleton.induction with
  | function name argument result first second => exact And.imp first second ofSorts
  | scalar base arguments refinement induction =>
      rw [ofSorts_scalar] at ofSorts ⊢
      exact ⟨ofSorts.1.mono widens,
        fun t member => induction t member (ofSorts.2 t member)⟩

theorem OfSorts.mp {t : RefinedType} (widens : t.OfSorts fun sort => kind sort → wider sort)
    (ofSorts : t.OfSorts kind) : t.OfSorts wider := by
  induction t using Skeleton.induction with
  | function name argument result first second =>
      exact ⟨first widens.1 ofSorts.1, second widens.2 ofSorts.2⟩
  | scalar base arguments refinement induction =>
      rw [ofSorts_scalar] at widens ofSorts ⊢
      exact ⟨fun occurrence member => widens.1 occurrence member (ofSorts.1 occurrence member),
        fun t member => induction t member (widens.2 t member) (ofSorts.2 t member)⟩

theorem OfSorts.addRefinement {t : RefinedType} (ofSorts : t.OfSorts kind)
    {formula : Formula} (added : formula.OfSorts kind) :
    (t.addRefinement formula).OfSorts kind := by
  cases t with
  | function name argument result => exact ofSorts
  | scalar base arguments refinement =>
      rw [ofSorts_scalar] at ofSorts
      rw [RefinedType.addRefinement, ofSorts_scalar]
      exact ofSorts.imp_left fun refined => refined.and added

theorem ofSorts_instantiate {sorts : SortAssignment}
    {image : String → Option RefinedType}
    (reached : ∀ sort : LogicSort, kind (sort.instantiate sorts))
    (images : ∀ name t, image name = some t → t.OfSorts kind) (t : RefinedType) :
    (t.instantiate sorts image).OfSorts kind := by
  induction t using Skeleton.induction with
  | function name argument result first second => exact ⟨first, second⟩
  | scalar base arguments refinement induction =>
      have refined := Formula.ofSorts_instantiateSorts reached refinement
      have inside : ∀ t ∈ instantiateAll sorts image arguments, OfSorts kind t := by
        rw [instantiateAll_eq_map]
        exact List.forall_mem_map.mpr induction
      have whole (base : BaseType) : OfSorts kind (.scalar base
          (instantiateAll sorts image arguments) (refinement.instantiateSorts sorts)) :=
        ofSorts_scalar.mpr ⟨refined, inside⟩
      cases base with
      | bool | int | data _ => exact whole _
      | typeVar name =>
          cases arguments with
          | cons head rest => exact whole _
          | nil =>
              rw [RefinedType.instantiate]
              cases found : image name with
              | none => exact whole _
              | some t => exact (images name t found).addRefinement refined

theorem toTerm_applySolution (t : RefinedType) (solution : Solution) :
    (t.applySolution solution).toTerm = t.toTerm := by
  induction t using Skeleton.induction with
  | function name argument result first second =>
      rw [applySolution_function, Skeleton.toTerm_function, Skeleton.toTerm_function,
        first, second]
  | scalar base arguments refinement induction =>
      rw [applySolution_scalar]
      apply Skeleton.toTerm_scalar_congr
      rw [List.map_map]
      exact List.map_congr_left induction

theorem OfSorts.applySolution {t : RefinedType} (ofSorts : t.OfSorts kind)
    {solution : Solution}
    (chosen : ∀ unknown, ∀ qualifier ∈ solution.chosen unknown, qualifier.OfSorts kind) :
    (t.applySolution solution).OfSorts kind := by
  induction t using Skeleton.induction with
  | function name argument result first second =>
      exact And.imp first second ofSorts
  | scalar base arguments refinement induction =>
      rw [ofSorts_scalar] at ofSorts
      rw [applySolution_scalar, ofSorts_scalar, List.forall_mem_map]
      exact ⟨ofSorts.1.applySolution chosen,
        fun t member => induction t member (ofSorts.2 t member)⟩

theorem wellKinded_instantiate {t : RefinedType} (kinded : t.toTerm.WellKinded)
    (sorts : SortAssignment) {image : String → Option RefinedType}
    (images : ∀ name t, image name = some t → t.toTerm.WellKinded) :
    (t.instantiate sorts image).toTerm.WellKinded := by
  rw [toTerm_instantiate]
  apply kinded.substitute
  intro name _
  unfold imageTerm
  cases found : image name with
  | none => exact .var name
  | some t => exact images name t found

end RefinedType

namespace TypeAssignment

variable {assignment : TypeAssignment}

/-! ## Assignments without variables that carry arguments -/

def WellKinded (assignment : TypeAssignment) : Prop :=
  ∀ name t, assignment.find? name = some t → t.toTerm.WellKinded

theorem wellKinded_empty : WellKinded ∅ := nofun

theorem WellKinded.insert (kinded : assignment.WellKinded) (name : String)
    {t : RefinedType} (new : t.toTerm.WellKinded) :
    WellKinded (assignment.insert name t) := by
  intro other u found
  rw [SortedMap.find?_insert] at found
  split at found
  · cases found
    exact new
  · exact kinded other u found

theorem WellKinded.apply (kinded : assignment.WellKinded) {t : RefinedType}
    (type : t.toTerm.WellKinded) : (assignment.apply t).toTerm.WellKinded :=
  RefinedType.wellKinded_instantiate type _ <| forall_resolveWithin (fun _ t => t.toTerm.WellKinded)
    (fun name assigned found _ => RefinedType.wellKinded_instantiate (kinded name assigned found) _)
    _

theorem WellKinded.inherits (kinded : assignment.WellKinded) :
    Inherits assignment fun t => t.toTerm.WellKinded := by
  have hereditary : Hereditary assignment TypeTerm.WellKinded := by
    refine ⟨fun _ => id, ?_, ?_, fun _ => kinded.apply⟩
    · exact fun _ _ whole => (TypeTerm.wellKinded_node_iff.mp whole).2
    · intro symbol arguments whole some within
      rcases TypeTerm.wellKinded_node_iff.mp whole with ⟨proper, inner⟩
      exact TypeTerm.wellKinded_node_iff.mpr ⟨proper, fun t member => inner t (within member)⟩
  exact hereditary.inherits

/-! ## Settled sorts -/

/-- The sort is no variable that is assigned a scalar type. -/
def Settled (assignment : TypeAssignment) : LogicSort → Prop
  | .var name => assignment.sorts.find? name = none
  | .bool | .int | .data _ => True

instance : DecidablePred assignment.Settled
  | .var name => inferInstanceAs (Decidable (assignment.sorts.find? name = none))
  | .bool | .int | .data _ => .isTrue trivial

theorem find?_sorts (assignment : TypeAssignment) (name : String) :
    assignment.sorts.find? name =
      (assignment.find? name).bind fun t => t.base?.map BaseType.sort :=
  SortedMap.find?_filterMapValues _ _ _

theorem Settled.isOpen {sort : LogicSort} (settled : assignment.Settled sort) :
    sort.IsOpen assignment.sorts := by
  rintro name rfl
  exact settled

theorem Settled.instantiate {sort : LogicSort} (settled : assignment.Settled sort) :
    sort.instantiate assignment.sorts = sort :=
  LogicSort.instantiate_of_open settled.isOpen

theorem WellKinded.refers_of_sorts (kinded : assignment.WellKinded) {name other : String}
    (found : assignment.sorts.find? name = some (.var other)) :
    assignment.Refers name other := by
  rw [find?_sorts, Option.bind_eq_some_iff] at found
  rcases found with ⟨t, assigned, isSort⟩
  refine ⟨t, assigned, ?_⟩
  have whole := kinded name t assigned
  cases t with
  | function _ _ _ => cases isSort
  | scalar base arguments refinement =>
      cases base with
      | bool | int | data _ => cases isSort
      | typeVar base =>
          cases isSort
          cases arguments with
          | nil => exact List.mem_singleton_self other
          | cons head rest => exact absurd rfl (Skeleton.base_ne_of_wellKinded whole other)

theorem Acyclic.sorts (acyclic : assignment.Acyclic) (kinded : assignment.WellKinded) :
    SortAssignment.Acyclic assignment.sorts :=
  fun name cycle => acyclic name
    (Relation.TransGen.mono (fun _ _ => kinded.refers_of_sorts) _ _ cycle)

theorem settled_instantiate_of_sorts (ends : SortAssignment.Acyclic assignment.sorts)
    (sort : LogicSort) : assignment.Settled (sort.instantiate assignment.sorts) := by
  have isOpen := LogicSort.open_instantiate ends sort
  cases reached : sort.instantiate assignment.sorts with
  | var name => exact isOpen name reached
  | bool | int | data _ => trivial

theorem Acyclic.settled_instantiate (acyclic : assignment.Acyclic)
    (kinded : assignment.WellKinded) (sort : LogicSort) :
    assignment.Settled (sort.instantiate assignment.sorts) :=
  settled_instantiate_of_sorts (acyclic.sorts kinded) sort

theorem ofSorts_apply_of_reached {kind : LogicSort → Prop}
    (reached : ∀ sort : LogicSort, kind (sort.instantiate assignment.sorts))
    (t : RefinedType) : (assignment.apply t).OfSorts kind :=
  RefinedType.ofSorts_instantiate reached
    (forall_resolveWithin (fun _ => RefinedType.OfSorts kind)
      (fun _ assigned _ _ images => RefinedType.ofSorts_instantiate reached images assigned) _) t

theorem Acyclic.ofSorts_apply (acyclic : assignment.Acyclic)
    (kinded : assignment.WellKinded) (t : RefinedType) :
    (assignment.apply t).OfSorts assignment.Settled :=
  ofSorts_apply_of_reached (acyclic.settled_instantiate kinded) t

theorem Acyclic.ofSorts_applyFormula (acyclic : assignment.Acyclic)
    (kinded : assignment.WellKinded) (f : Formula) :
    (assignment.applyFormula f).OfSorts assignment.Settled :=
  Formula.ofSorts_instantiateSorts (acyclic.settled_instantiate kinded) f

theorem Acyclic.settled_base (acyclic : assignment.Acyclic) {t : RefinedType}
    {base : BaseType} {arguments : List RefinedType} {refinement : Formula}
    (applied : assignment.apply t = .scalar base arguments refinement)
    (type : (assignment.apply t).toTerm.WellKinded) : assignment.Settled base.sort := by
  cases base with
  | bool | int | data _ => trivial
  | typeVar name =>
      have isOpen : assignment.find? name = none := by
        apply acyclic.find?_of_mem_apply (t := t)
        rw [applied] at type ⊢
        cases arguments with
        | nil => exact List.mem_singleton_self name
        | cons head rest => exact absurd rfl (Skeleton.base_ne_of_wellKinded type name)
      change assignment.sorts.find? name = none
      rw [find?_sorts, isOpen]
      rfl

end TypeAssignment

/-! ## Coherence -/

/-- Occurrences that the assignment puts at one sort are at one sort, and atoms that it
makes equal are one atom, unless they are at an excepted sort. -/
structure Formula.Coherent (assignment : TypeAssignment) (excepted : LogicSort → Prop)
    (f : Formula) : Prop where
  sorts : ∀ name, ∀ first second : LogicSort, (first, name) ∈ f.sortedOccurrences →
    (second, name) ∈ f.sortedOccurrences →
      first.instantiate assignment.sorts = second.instantiate assignment.sorts →
        first = second ∨ excepted first ∨ excepted second
  atoms : ∀ first ∈ f.atoms, ∀ second ∈ f.atoms,
    assignment.applyFormula first = assignment.applyFormula second →
      first = second ∨ ∃ sort, excepted sort ∧ (first.Uses sort ∨ second.Uses sort)

theorem Formula.coherent_of_ofSorts {assignment : TypeAssignment}
    {excepted : LogicSort → Prop} {f : Formula}
    (ofSorts : f.OfSorts fun sort => assignment.Settled sort ∨ excepted sort) :
    f.Coherent assignment excepted where
  sorts name first second firstOccurs secondOccurs same := by
    rcases ofSorts _ firstOccurs with settled | outside
    · rcases ofSorts _ secondOccurs with alsoSettled | outside
      · exact .inl (settled.instantiate.symm.trans (same.trans alsoSettled.instantiate))
      · exact .inr (.inr outside)
    · exact .inr (.inl outside)
  atoms first firstAtom second secondAtom same := by
    have fixed (atom : Formula) (isAtom : atom ∈ f.atoms) :
        assignment.applyFormula atom = atom ∨ ∃ sort, excepted sort ∧ atom.Uses sort := by
      by_cases all : atom.OfSorts assignment.Settled
      · exact .inl (instantiateSorts_eq_self (all.mono fun _ => TypeAssignment.Settled.instantiate))
      · right
        rw [ofSorts_iff] at all
        push Not at all
        rcases all with ⟨sort, uses, unsettled⟩
        have either := ofSorts_iff.mp (ofSorts.atoms atom isAtom) sort uses
        exact ⟨sort, either.resolve_left unsettled, uses⟩
    rcases fixed first firstAtom with firstFixed | ⟨sort, outside, uses⟩
    · rcases fixed second secondAtom with secondFixed | ⟨sort, outside, uses⟩
      · exact .inl (firstFixed.symm.trans (same.trans secondFixed))
      · exact .inr ⟨sort, outside, .inr uses⟩
    · exact .inr ⟨sort, outside, .inl uses⟩

/-! ## Scopes -/

/-- No type variable carries arguments in the types of the scalars in scope. -/
structure Environment.WellKinded (env : Environment) : Prop where
  symbols : ∀ name type, (name, .mono type) ∈ (env.symbolsOfArity 0).entries →
    type.toTerm.WellKinded
  ghosts : ∀ name type, (name, type) ∈ env.ghosts.entries → type.toTerm.WellKinded

namespace Environment.WellKinded

variable {env : Environment} {assignment : TypeAssignment}

theorem addVariable (kinded : env.WellKinded) (name : String) {t : RefinedType}
    (type : t.toTerm.WellKinded) : (env.addVariable name t).WellKinded where
  symbols other u member := by
    rw [Environment.addVariable, symbolsOfArity_addSymbol] at member
    split at member
    · rcases Entries.mem_insert member with equal | old
      · cases equal
        exact type
      · exact kinded.symbols other u old
    · exact kinded.symbols other u member
  ghosts := kinded.ghosts

theorem settled_scalarBindings (kinded : env.WellKinded) (acyclic : assignment.Acyclic)
    (assigned : assignment.WellKinded) :
    ∀ binding ∈ env.scalarBindings assignment, ∃ base arguments refinement,
      binding.2 = .scalar base arguments refinement ∧ assignment.Settled base.sort ∧
        refinement.OfSorts assignment.Settled := by
  intro binding member
  rcases mem_scalarBindings.mp member with ⟨type, inScope, applied, isScalar⟩
  have typeKinded : type.toTerm.WellKinded :=
    inScope.elim (kinded.symbols binding.1 type) (kinded.ghosts binding.1 type)
  have refined := acyclic.ofSorts_apply assigned type
  rw [← applied] at isScalar ⊢
  cases shape : assignment.apply type with
  | function _ _ _ =>
      rw [shape] at isScalar
      cases isScalar
  | scalar base arguments refinement =>
      rw [shape] at refined
      exact ⟨base, arguments, refinement, rfl,
        acyclic.settled_base shape (assigned.apply typeKinded), refined.1⟩

theorem settled_scalars (kinded : env.WellKinded) (acyclic : assignment.Acyclic)
    (assigned : assignment.WellKinded) :
    ∀ term ∈ env.scalars assignment, term.OfSorts assignment.Settled := by
  intro term member
  rcases List.mem_flatMap.mp member with ⟨⟨name, type⟩, bound, member⟩
  rcases kinded.settled_scalarBindings acyclic assigned _ bound with
    ⟨base, arguments, refinement, isScalar, settled, _⟩
  have isVar : (Formula.var base.sort name).OfSorts assignment.Settled :=
    Formula.ofSorts_var.mpr settled
  rw [isScalar] at member
  cases base with
  | bool | int | typeVar _ => exact List.mem_singleton.mp member ▸ isVar
  | data datatype =>
      dsimp only [termsOf] at member
      cases metric : env.metric? datatype with
      | none =>
          rw [metric] at member
          exact List.mem_singleton.mp member ▸ isVar
      | some measure =>
          rw [metric] at member
          rcases List.mem_cons.mp member with rfl | member
          · exact Formula.ofSorts_measure.mpr ⟨trivial, isVar⟩
          · exact List.mem_singleton.mp member ▸ isVar

theorem settled_positives (kinded : env.WellKinded) (acyclic : assignment.Acyclic)
    (assigned : assignment.WellKinded) :
    ∀ fact ∈ env.positives assignment, fact.OfSorts assignment.Settled := by
  intro fact member
  rcases SortedSet.mem_insertMany.mp member with assumed | stated
  · rcases List.mem_map.mp (SortedSet.mem_ofList.mp assumed) with ⟨f, _, rfl⟩
    exact acyclic.ofSorts_applyFormula assigned f
  · rcases List.mem_map.mp (List.mem_filter.mp stated).1 with ⟨binding, bound, rfl⟩
    rcases kinded.settled_scalarBindings acyclic assigned binding
      (List.mem_filter.mp bound).1 with ⟨base, arguments, refinement, isScalar, settled, refined⟩
    rw [isScalar]
    exact refined.substitute
      (List.forall_mem_singleton.mpr (Formula.ofSorts_var.mpr settled))

end Environment.WellKinded

theorem TypeAssignment.Acyclic.settled_negatives {assignment : TypeAssignment}
    (acyclic : assignment.Acyclic) (assigned : assignment.WellKinded) (env : Environment) :
    ∀ fact ∈ env.negatives assignment, fact.OfSorts assignment.Settled := by
  intro fact member
  rcases List.mem_map.mp (SortedSet.mem_ofList.mp member) with ⟨f, _, rfl⟩
  exact acyclic.ofSorts_applyFormula assigned f

end Inhabit
