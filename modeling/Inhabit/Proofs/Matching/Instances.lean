import Inhabit.Proofs.Faults.Constructors
import Inhabit.Proofs.Sorts.Assignments

/-! Instances of schemas.

An instance has new variables for the quantified ones, each its own, and leaves the others
as they are. -/

namespace Inhabit

/-! ## Inserting many entries -/

namespace SortedMap

variable {κ α : Type} [Ord κ] [Std.TransOrd κ] [Std.LawfulEqOrd κ]

def insertAll (map : SortedMap κ α) (entries : List (κ × α)) : SortedMap κ α :=
  entries.foldl (fun map entry => map.insert entry.1 entry.2) map

variable (map : SortedMap κ α) {entries : List (κ × α)} {key : κ}

theorem find?_insertAll_of_not_mem (absent : key ∉ entries.map Prod.fst) :
    (map.insertAll entries).find? key = map.find? key := by
  induction entries generalizing map with
  | nil => rfl
  | cons entry rest induction =>
      rw [List.map_cons, List.mem_cons, not_or] at absent
      exact (induction _ absent.2).trans (find?_insert_of_ne map absent.1 _)

theorem exists_find?_insertAll (occurs : key ∈ entries.map Prod.fst) :
    ∃ value, (key, value) ∈ entries ∧ (map.insertAll entries).find? key = some value := by
  induction entries generalizing map with
  | nil => cases occurs
  | cons entry rest induction =>
      by_cases later : key ∈ rest.map Prod.fst
      · rcases induction (map.insert entry.1 entry.2) later with ⟨value, member, found⟩
        exact ⟨value, List.mem_cons_of_mem _ member, found⟩
      · have here : key = entry.1 := (List.mem_cons.mp occurs).resolve_right later
        refine ⟨entry.2, List.mem_cons.mpr (.inl (Prod.ext here rfl)), ?_⟩
        rw [here] at later ⊢
        exact (find?_insertAll_of_not_mem _ later).trans (find?_insert_self map _ _)

theorem find?_insertAll_of_mem (distinct : (entries.map Prod.fst).Nodup) {value : α}
    (member : (key, value) ∈ entries) : (map.insertAll entries).find? key = some value := by
  rcases exists_find?_insertAll map (List.mem_map_of_mem member) with ⟨other, found, equal⟩
  cases List.inj_on_of_nodup_map distinct member found rfl
  exact equal

end SortedMap

/-! ## Types that are left alone -/

namespace RefinedType

theorem addRefinement_top (t : RefinedType) : t.addRefinement .top = t := by
  cases t with
  | function _ _ _ => rfl
  | scalar base arguments refinement => rw [addRefinement, Formula.and_top]

theorem instantiate_eq_self {sorts : SortAssignment} {image : String → Option RefinedType}
    {t : RefinedType} (unassigned : ∀ name ∈ t.toTerm.vars, image name = none)
    (fixed : t.OfSorts fun sort => sort.instantiate sorts = sort) :
    instantiate sorts image t = t := by
  induction t using Skeleton.induction with
  | function name argument result first second =>
      rw [Skeleton.vars_function, List.forall_mem_append] at unassigned
      rw [instantiate, first unassigned.1 fixed.1, second unassigned.2 fixed.2]
  | scalar base arguments refinement induction =>
      rw [ofSorts_scalar] at fixed
      have same := Formula.instantiateSorts_eq_self fixed.1
      cases arguments with
      | nil =>
          cases base with
          | typeVar name =>
              have none := unassigned name (List.mem_singleton_self name)
              rw [instantiate, none, same]
          | bool | int | data _ => exact congrArg _ same
      | cons head rest =>
          rw [Skeleton.vars_scalar_cons, List.forall_mem_flatMap] at unassigned
          rw [instantiate_scalar_cons, same]
          refine congrArg (Skeleton.scalar base · refinement) ?_
          calc (head :: rest).map (instantiate sorts image)
              = (head :: rest).map id := List.map_congr_left fun t member =>
                  induction t member (unassigned t member) (fixed.2 t member)
            _ = head :: rest := List.map_id _

theorem mem_typeVarOccurrences_instantiate {sorts : SortAssignment}
    {image : String → Option RefinedType} {t : RefinedType} (kinded : t.toTerm.WellKinded)
    {name : String} (occurs : name ∈ (instantiate sorts image t).typeVarOccurrences) :
    ∃ old ∈ t.toTerm.vars, (image old = none ∧ name = old) ∨
      ∃ u, image old = some u ∧ name ∈ u.typeVarOccurrences := by
  induction t using Skeleton.induction with
  | function parameter argument result first second =>
      obtain ⟨firstKinded, secondKinded⟩ := Skeleton.wellKinded_function kinded
      rw [instantiate, Skeleton.typeVarOccurrences, List.mem_append] at occurs
      rw [Skeleton.vars_function]
      rcases occurs with left | right
      · rcases first firstKinded left with ⟨old, inside, images⟩
        exact ⟨old, List.mem_append_left _ inside, images⟩
      · rcases second secondKinded right with ⟨old, inside, images⟩
        exact ⟨old, List.mem_append_right _ inside, images⟩
  | scalar base arguments refinement induction =>
      cases arguments with
      | nil =>
          cases base with
          | bool | int | data _ => cases occurs
          | typeVar other =>
              refine ⟨other, List.mem_singleton_self _, ?_⟩
              rw [instantiate] at occurs
              cases found : image other with
              | none =>
                  rw [found] at occurs
                  exact .inl ⟨rfl, List.mem_singleton.mp occurs⟩
              | some u =>
                  rw [found] at occurs
                  refine .inr ⟨u, rfl, ?_⟩
                  cases u with
                  | function _ _ _ => exact occurs
                  | scalar base arguments refinement => cases base <;> exact occurs
      | cons head rest =>
          have proper := Skeleton.base_ne_of_wellKinded kinded
          have inside : name ∈ Skeleton.typeVarOccurrencesAll
              ((head :: rest).map (instantiate sorts image)) := by
            rw [instantiate_scalar_cons] at occurs
            cases base with
            | typeVar other => exact absurd rfl (proper other)
            | bool | int | data _ => exact occurs
          rw [Skeleton.typeVarOccurrencesAll_eq_flatMap, List.flatMap_map] at inside
          rcases List.mem_flatMap.mp inside with ⟨t, member, occurs⟩
          rcases induction t member (Skeleton.wellKinded_of_mem_arguments kinded member) occurs
            with ⟨old, inT, images⟩
          rw [Skeleton.vars_scalar_cons]
          exact ⟨old, List.mem_flatMap.mpr ⟨t, member, inT⟩, images⟩

end RefinedType

namespace TypeAssignment

variable {assignment : TypeAssignment}

structure Fixes (assignment : TypeAssignment) (t : RefinedType) : Prop where
  isOpen : ∀ name ∈ t.toTerm.vars, assignment.find? name = none
  settled : t.OfSorts assignment.Settled

theorem Fixes.apply {t : RefinedType} (fixes : assignment.Fixes t) :
    assignment.apply t = t :=
  RefinedType.instantiate_eq_self
    (fun name occurs => resolveWithin_of_unassigned (fixes.isOpen name occurs) _ _)
    (fixes.settled.mono fun _ => Settled.instantiate)

theorem Fixes.resolve {name : String} {t : RefinedType} (fixes : assignment.Fixes t)
    (found : assignment.find? name = some t) : assignment.resolve name = some t := by
  have links : ∃ links, assignment.size = links + 1 := by
    apply Nat.exists_eq_add_one.mpr
    exact List.length_pos_of_mem (SortedMap.mem_entries_of_find? found)
  rcases links with ⟨links, size⟩
  rw [TypeAssignment.resolve, size, resolveWithin, found]
  refine congrArg some (RefinedType.instantiate_eq_self ?_ ?_)
  · exact fun name occurs => resolveWithin_of_unassigned (fixes.isOpen name occurs) _ _
  · exact fixes.settled.mono fun _ => Settled.instantiate

end TypeAssignment

/-! ## Instances -/

/-- The images of the quantified variables are variables that have just been drawn, each
its own. -/
structure Schema.Opens (schema : Schema) (before after : NameSupply)
    (images : TypeAssignment) (opened : String → String) : Prop where
  finds : ∀ name ∈ schema.boundVars,
    images.find? name = some (.atom (.typeVar (opened name)) .top)
  ignores : ∀ name, name ∉ schema.boundVars → images.find? name = none
  draws : ∀ name ∈ schema.boundVars, before.Draws after (opened name)
  injective : ∀ first ∈ schema.boundVars, ∀ second ∈ schema.boundVars,
    opened first = opened second → first = second

namespace Schema

theorem run_images (names : List String) (supply : NameSupply) :
    (names.mapM fun name => do
        return (name, Skeleton.atom (.typeVar (← freshName Stem.typeVar)) Formula.top) :
          Naming (List (String × RefinedType))).run supply =
      ((names.zipIdx supply.issued).map fun entry =>
        (entry.1, .atom (.typeVar (Stem.typeVar ++ toString entry.2)) .top),
        ⟨supply.issued + names.length⟩) := by
  induction names generalizing supply with
  | nil => rfl
  | cons name rest induction =>
      have later := induction ⟨supply.issued + 1⟩
      rw [Nat.add_right_comm] at later
      rw [List.mapM_cons]
      exact congrArg (fun drawn => ((name, Skeleton.atom
        (.typeVar (Stem.typeVar ++ toString supply.issued)) Formula.top) :: drawn.1, drawn.2))
        later

def openings (names : List String) (supply : NameSupply) : TypeAssignment :=
  .ofList ((names.zipIdx supply.issued).map fun entry =>
    (entry.1, .atom (.typeVar (Stem.typeVar ++ toString entry.2)) .top))

theorem run_instantiate (schema : Schema) (supply : NameSupply) :
    schema.instantiate.run supply = ((openings schema.boundVars supply).apply schema.body,
      ⟨supply.issued + schema.boundVars.length⟩) := by
  rw [Schema.instantiate, StateT.run_bind, run_images]
  rfl

theorem exists_opened (schema : Schema) (supply : NameSupply) :
    ∃ opened, schema.Opens supply ⟨supply.issued + schema.boundVars.length⟩
      (openings schema.boundVars supply) opened := by
  let entries := (schema.boundVars.zipIdx supply.issued).map fun entry =>
    (entry.1, Skeleton.atom (.typeVar (Stem.typeVar ++ toString entry.2)) Formula.top)
  have keys : entries.map Prod.fst = schema.boundVars := by
    rw [List.map_map]
    exact List.zipIdx_map_fst _ _
  have numbered (name : String) : ∃ number, name ∈ schema.boundVars →
      (name, number) ∈ schema.boundVars.zipIdx supply.issued ∧
        SortedMap.find? (.ofList entries) name =
          some (.atom (.typeVar (Stem.typeVar ++ toString number)) .top) := by
    by_cases occurs : name ∈ schema.boundVars
    · rw [← keys] at occurs
      rcases SortedMap.exists_find?_insertAll ∅ occurs with ⟨t, member, found⟩
      rcases List.mem_map.mp member with ⟨⟨_, number⟩, inside, equal⟩
      cases equal
      exact ⟨number, fun _ => ⟨inside, found⟩⟩
    · exact ⟨0, fun inside => absurd inside occurs⟩
  choose number chosen using numbered
  refine ⟨fun name => Stem.typeVar ++ toString (number name), ?_⟩
  constructor
  · exact fun name occurs => (chosen name occurs).2
  · intro name outside
    rw [← keys] at outside
    exact SortedMap.find?_insertAll_of_not_mem ∅ outside
  · intro name occurs
    rcases List.mk_mem_zipIdx_iff_le_and_getElem?_sub.mp (chosen name occurs).1 with
      ⟨late, position⟩
    have inside := (List.getElem?_eq_some_iff.mp position).1
    exact ⟨number name, late, by dsimp only; omega, rfl⟩
  · intro first firstOccurs second secondOccurs same
    have sameNumber := NameSupply.numbered_injective same
    have firstAt := List.mk_mem_zipIdx_iff_le_and_getElem?_sub.mp (chosen first firstOccurs).1
    have secondAt := List.mk_mem_zipIdx_iff_le_and_getElem?_sub.mp (chosen second secondOccurs).1
    rw [sameNumber, secondAt.2] at firstAt
    exact (Option.some.inj firstAt.2).symm

theorem exists_opens (schema : Schema) (supply : NameSupply) :
    ∃ images after opened, schema.instantiate.run supply = (images.apply schema.body, after) ∧
      schema.Opens supply after images opened := by
  obtain ⟨opened, opens⟩ := schema.exists_opened supply
  exact ⟨_, _, opened, schema.run_instantiate supply, opens⟩

namespace Opens

variable {schema : Schema} {before after : NameSupply} {images : TypeAssignment}
  {opened : String → String} (opens : schema.Opens before after images opened)
  (future : ∀ name ∈ schema.boundVars, before.Avoids name)

include opens

theorem resolve_of_not_mem {name : String} (outside : name ∉ schema.boundVars) :
    images.resolve name = none :=
  TypeAssignment.resolveWithin_of_unassigned (opens.ignores name outside) _ _

theorem of_find? {name : String} {t : RefinedType} (found : images.find? name = some t) :
    name ∈ schema.boundVars ∧ t = .atom (.typeVar (opened name)) .top := by
  by_cases occurs : name ∈ schema.boundVars
  · exact ⟨occurs, Option.some.inj (found.symm.trans (opens.finds name occurs))⟩
  · cases (opens.ignores name occurs).symm.trans found

include future

theorem opened_not_mem {name : String} (occurs : name ∈ schema.boundVars) :
    opened name ∉ schema.boundVars :=
  fun again => (opens.draws name occurs).not_avoids (future _ again)

theorem ignores_opened {name : String} (occurs : name ∈ schema.boundVars) :
    images.find? (opened name) = none :=
  opens.ignores _ (opens.opened_not_mem future occurs)

theorem resolve {name : String} (occurs : name ∈ schema.boundVars) :
    images.resolve name = some (.atom (.typeVar (opened name)) .top) := by
  apply TypeAssignment.Fixes.resolve _ (opens.finds name occurs)
  constructor
  · intro other same
    cases List.mem_singleton.mp same
    exact opens.ignores_opened future occurs
  · exact RefinedType.ofSorts_scalar.mpr ⟨List.forall_mem_nil _, List.forall_mem_nil _⟩

theorem acyclic : images.Acyclic := by
  refine TypeAssignment.acyclic_of_rank (fun name => if name ∈ schema.boundVars then 1 else 0) ?_
  rintro name other ⟨t, found, occurs⟩
  obtain ⟨quantified, rfl⟩ := opens.of_find? found
  cases List.mem_singleton.mp occurs
  rw [if_pos quantified, if_neg (opens.opened_not_mem future quantified)]
  exact Nat.one_pos

theorem lastType {datatype : String} {names : List String} {refinement : Formula}
    (last : schema.body.lastType =
      .scalar (.data datatype) (names.map fun name => .atom (.typeVar name) .top) refinement)
    (within : names ⊆ schema.boundVars) :
    (images.apply schema.body).lastType = .scalar (.data datatype)
      ((names.map opened).map fun name => .atom (.typeVar name) .top)
      (refinement.instantiateSorts images.sorts) := by
  rw [TypeAssignment.apply, RefinedType.lastType_instantiate last, List.map_map, List.map_map]
  refine congrArg (Skeleton.scalar _ · _) (List.map_congr_left fun name member => ?_)
  rw [Function.comp_apply, RefinedType.instantiate, opens.resolve future (within member)]
  rfl

omit future in
theorem wellKinded : images.WellKinded := by
  intro name t found
  obtain ⟨_, rfl⟩ := opens.of_find? found
  exact .var _

theorem mem_typeVarOccurrences (kinded : schema.body.toTerm.WellKinded) {name : String}
    (occurs : name ∈ (images.apply schema.body).typeVarOccurrences) :
    ∃ old ∈ schema.body.typeVarOccurrences, (old ∉ schema.boundVars ∧ name = old) ∨
      (old ∈ schema.boundVars ∧ name = opened old) := by
  rcases RefinedType.mem_typeVarOccurrences_instantiate kinded occurs with
    ⟨old, inside, ⟨isOpen, equal⟩ | ⟨t, resolved, within⟩⟩
  all_goals refine ⟨old, Skeleton.vars_subset_typeVarOccurrences _ inside, ?_⟩
  · left
    refine ⟨fun quantified => ?_, equal⟩
    cases isOpen.symm.trans (opens.resolve future quantified)
  · right
    by_cases quantified : old ∈ schema.boundVars
    · cases (opens.resolve future quantified).symm.trans resolved
      exact ⟨quantified, List.mem_singleton.mp within⟩
    · cases (opens.resolve_of_not_mem quantified).symm.trans resolved

end Opens

end Schema

end Inhabit
