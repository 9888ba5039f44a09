import Inhabit.Proofs.Simplification.Steps
import Inhabit.Proofs.Unification.FreshCopy
import Inhabit.Proofs.Unknowns.Formulas

/-! The unknowns of types, and how the operations on types act on them. -/

namespace Inhabit

namespace RefinedType

open Skeleton

/-! ## Types without unknowns -/

def Known (t : RefinedType) : Prop := t.unknownOccurrences = []

theorem unknownOccurrencesAll_eq_flatMap (ts : List RefinedType) :
    unknownOccurrencesAll ts = ts.flatMap unknownOccurrences := by
  induction ts with
  | nil => rfl
  | cons _ _ induction => exact congrArg (_ ++ ·) induction

theorem known_scalar {base : BaseType} {arguments : List RefinedType}
    {refinement : Formula} :
    Known (.scalar base arguments refinement) ↔
      refinement.Known ∧ ∀ t ∈ arguments, Known t := by
  unfold Known Formula.Known
  rw [unknownOccurrences, List.append_eq_nil_iff, unknownOccurrencesAll_eq_flatMap,
    List.flatMap_eq_nil_iff]

theorem known_function {name : String} {argument result : RefinedType} :
    Known (.function name argument result) ↔ argument.Known ∧ result.Known :=
  List.append_eq_nil_iff

/-! ## Types whose unknowns are covered -/

mutual

def Tidy (covers : String → Prop) : RefinedType → Prop
  | .scalar base arguments refinement =>
      refinement.Covered covers ∧ (∀ name, base = .typeVar name → arguments = []) ∧
        TidyAll covers arguments
  | .function _ argument result => Tidy covers argument ∧ Tidy covers result
termination_by structural t => t

def TidyAll (covers : String → Prop) : List RefinedType → Prop
  | [] => True
  | t :: rest => Tidy covers t ∧ TidyAll covers rest
termination_by structural ts => ts

end

variable {covers wider : String → Prop}

theorem tidyAll_iff {ts : List RefinedType} :
    TidyAll covers ts ↔ ∀ t ∈ ts, Tidy covers t := by
  induction ts with
  | nil => exact iff_of_true trivial (List.forall_mem_nil _)
  | cons _ _ induction => rw [TidyAll, induction, List.forall_mem_cons]

theorem tidy_scalar {base : BaseType} {arguments : List RefinedType}
    {refinement : Formula} :
    Tidy covers (.scalar base arguments refinement) ↔
      refinement.Covered covers ∧ (∀ name, base = .typeVar name → arguments = []) ∧
        ∀ t ∈ arguments, Tidy covers t := by
  rw [Tidy, tidyAll_iff]

theorem tidy_function {name : String} {argument result : RefinedType} :
    Tidy covers (.function name argument result) ↔
      argument.Tidy covers ∧ result.Tidy covers := by
  rw [Tidy]

theorem Tidy.argument (name : String) {argument result : RefinedType}
    (tidy : Tidy covers (.function name argument result)) : argument.Tidy covers :=
  (tidy_function.mp tidy).1

theorem Tidy.result (name : String) {argument result : RefinedType}
    (tidy : Tidy covers (.function name argument result)) : result.Tidy covers :=
  (tidy_function.mp tidy).2

theorem tidy_atom {base : BaseType} {refinement : Formula} :
    Tidy covers (.atom base refinement) ↔ refinement.Covered covers := by
  simp [tidy_scalar]

theorem Tidy.mono {t : RefinedType} (tidy : t.Tidy covers)
    (widens : ∀ unknown, covers unknown → wider unknown) : t.Tidy wider := by
  induction t using Skeleton.induction with
  | function name argument result first second =>
      rw [tidy_function] at tidy ⊢
      exact tidy.imp first second
  | scalar base arguments refinement induction =>
      rw [tidy_scalar] at tidy ⊢
      exact ⟨tidy.1.mono widens, tidy.2.1, fun t member =>
        induction t member (tidy.2.2 t member)⟩

theorem Tidy.of_mem {t : RefinedType} (tidy : t.Tidy covers) :
    ∀ unknown ∈ t.unknownOccurrences, covers unknown := by
  induction t using Skeleton.induction with
  | function name argument result first second =>
      rw [tidy_function] at tidy
      exact List.forall_mem_append.mpr ⟨first tidy.1, second tidy.2⟩
  | scalar base arguments refinement induction =>
      rw [tidy_scalar] at tidy
      rw [unknownOccurrences, unknownOccurrencesAll_eq_flatMap]
      apply List.forall_mem_append.mpr ⟨tidy.1.of_mem, _⟩
      intro unknown member
      rcases List.mem_flatMap.mp member with ⟨t, inside, occurs⟩
      exact induction t inside (tidy.2.2 t inside) unknown occurs

/-! ## Operations -/

theorem Tidy.addRefinement {t : RefinedType} (tidy : t.Tidy covers) {formula : Formula}
    (covered : formula.Covered covers) : (t.addRefinement formula).Tidy covers := by
  cases t with
  | function name argument result => exact tidy
  | scalar base arguments refinement =>
      rw [tidy_scalar] at tidy
      rw [RefinedType.addRefinement, tidy_scalar]
      exact tidy.imp_left fun refined => refined.and covered

theorem Tidy.substitute {t : RefinedType} (tidy : t.Tidy covers)
    {substitution : Substitution} (renames : substitution.Renames) :
    (t.substitute substitution).Tidy covers := by
  induction t using Skeleton.induction generalizing substitution with
  | function name argument result first second =>
      rw [tidy_function] at tidy
      rw [RefinedType.substitute, tidy_function]
      exact ⟨first tidy.1 renames, second tidy.2 (renames.erase name)⟩
  | scalar base arguments refinement induction =>
      rw [tidy_scalar] at tidy
      rw [RefinedType.substitute, substituteAll_eq_map, tidy_scalar]
      refine ⟨tidy.1.substitute renames, ?_, ?_⟩
      · intro name isVar
        rw [tidy.2.1 name isVar]
        rfl
      · intro t member
        rcases List.mem_map.mp member with ⟨t, inside, rfl⟩
        exact induction t inside (tidy.2.2 t inside) renames

theorem Tidy.renameVar {t : RefinedType} (tidy : t.Tidy covers) (old new : String)
    (oldType : RefinedType) : (t.renameVar old new oldType).Tidy covers := by
  cases oldType with
  | function _ _ _ => exact tidy
  | scalar base _ _ => exact tidy.substitute (List.forall_mem_singleton.mpr rfl)

theorem Tidy.instantiate {t : RefinedType} (tidy : t.Tidy covers) (sorts : SortAssignment)
    {image : String → Option RefinedType}
    (images : ∀ name t, image name = some t → t.Tidy covers) :
    (t.instantiate sorts image).Tidy covers := by
  induction t using Skeleton.induction with
  | function name argument result first second =>
      rw [tidy_function] at tidy
      rw [RefinedType.instantiate, tidy_function]
      exact tidy.imp first second
  | scalar base arguments refinement induction =>
      rw [tidy_scalar] at tidy
      have refined := tidy.1.instantiateSorts sorts
      by_cases isVar : ∃ name, base = .typeVar name
      · rcases isVar with ⟨name, rfl⟩
        rw [tidy.2.1 name rfl, RefinedType.instantiate]
        cases found : image name with
        | none => exact tidy_atom.mpr refined
        | some t => exact (images name t found).addRefinement refined
      · have unfolded : RefinedType.instantiate sorts image
              (.scalar base arguments refinement) = .scalar base
              (arguments.map (RefinedType.instantiate sorts image))
                (refinement.instantiateSorts sorts) := by
          rw [← instantiateAll_eq_map]
          cases base with
          | typeVar name => exact absurd ⟨name, rfl⟩ isVar
          | bool | int | data _ => rfl
        rw [unfolded, tidy_scalar]
        refine ⟨refined, fun name equal => absurd ⟨name, equal⟩ isVar, ?_⟩
        intro t member
        rcases List.mem_map.mp member with ⟨t, inside, rfl⟩
        exact induction t inside (tidy.2.2 t inside)

theorem mapRefinementsAll_eq_map {ρ τ : Type} (transform : ρ → τ)
    (ts : List (Skeleton ρ)) :
    mapRefinementsAll transform ts = ts.map (mapRefinements transform) := by
  induction ts with
  | nil => rfl
  | cons _ _ induction => exact congrArg (_ :: ·) induction

theorem applySolution_scalar (solution : Solution) (base : BaseType)
    (arguments : List RefinedType) (refinement : Formula) :
    applySolution solution (.scalar base arguments refinement) =
      .scalar base (arguments.map (applySolution solution))
        (refinement.applySolution solution) := by
  rw [applySolution, mapRefinements, mapRefinementsAll_eq_map]
  rfl

theorem applySolution_function (solution : Solution) (name : String)
    (argument result : RefinedType) :
    applySolution solution (.function name argument result) =
      .function name (argument.applySolution solution) (result.applySolution solution) := rfl

theorem refineAll_eq_map (weakest : Bool) (shapes : List Shape) :
    Shape.refineAll weakest shapes = shapes.map (Shape.refine weakest) := by
  induction shapes with
  | nil => rfl
  | cons _ _ induction => exact congrArg (_ :: ·) induction

theorem Tidy.refine {t : RefinedType} (tidy : t.Tidy covers) (weakest : Bool) :
    (Shape.refine weakest t.shape).Tidy wider := by
  unfold Skeleton.shape
  induction t using Skeleton.induction generalizing weakest with
  | function name argument result first second =>
      rw [tidy_function] at tidy
      rw [mapRefinements, Shape.refine, tidy_function]
      exact ⟨first tidy.1 _, second tidy.2 _⟩
  | scalar base arguments refinement induction =>
      rw [tidy_scalar] at tidy
      rw [mapRefinements, mapRefinementsAll_eq_map, Shape.refine, refineAll_eq_map,
        List.map_map, tidy_scalar]
      refine ⟨trivial, ?_, ?_⟩
      · intro name isVar
        rw [tidy.2.1 name isVar]
        rfl
      · intro t member
        rcases List.mem_map.mp member with ⟨t, inside, rfl⟩
        exact induction t inside (tidy.2.2 t inside) weakest

theorem Tidy.known_applySolution {solution : Solution} (known : solution.Known)
    (total : ∀ unknown, covers unknown → solution.contains unknown = true)
    {t : RefinedType} (tidy : t.Tidy covers) : (t.applySolution solution).Known := by
  induction t using Skeleton.induction with
  | function name argument result first second =>
      rw [tidy_function] at tidy
      rw [applySolution_function, known_function]
      exact tidy.imp first second
  | scalar base arguments refinement induction =>
      rw [tidy_scalar] at tidy
      rw [applySolution_scalar, known_scalar]
      refine ⟨tidy.1.known_applySolution known total, ?_⟩
      intro t member
      rcases List.mem_map.mp member with ⟨t, inside, rfl⟩
      exact induction t inside (tidy.2.2 t inside)

end RefinedType

/-! ## Fresh copies -/

namespace Environment

open RefinedType

variable {covers : String → Prop}

mutual

/-- The unknowns of the refinements that stay whatever the free variables are
assigned. -/
def lastingUnknowns (env : Environment) : RefinedType → List String
  | .scalar base arguments refinement =>
      (match env.freeVar? (.atom base refinement) with
        | some _ => []
        | none => refinement.unknownOccurrences) ++ lastingUnknownsAll env arguments
  | .function _ argument result =>
      lastingUnknowns env argument ++ lastingUnknowns env result
termination_by structural t => t

def lastingUnknownsAll (env : Environment) : List RefinedType → List String
  | [] => []
  | t :: rest => lastingUnknowns env t ++ lastingUnknownsAll env rest
termination_by structural ts => ts

end

theorem lastingUnknownsAll_eq_flatMap (env : Environment) (ts : List RefinedType) :
    env.lastingUnknownsAll ts = ts.flatMap env.lastingUnknowns := by
  induction ts with
  | nil => rfl
  | cons _ _ induction => exact congrArg (_ ++ ·) induction

theorem lastingUnknowns_addVariable (env : Environment) (name : String)
    (type t : RefinedType) :
    (env.addVariable name type).lastingUnknowns t = env.lastingUnknowns t := by
  induction t using Skeleton.induction with
  | function x argument result first second =>
      exact congrArg₂ (· ++ ·) first second
  | scalar base arguments refinement induction =>
      rw [lastingUnknowns, lastingUnknowns, lastingUnknownsAll_eq_flatMap,
        lastingUnknownsAll_eq_flatMap, List.flatMap_congr induction]
      rfl

theorem mem_lastingUnknowns_argument {env : Environment} {base : BaseType}
    {arguments : List RefinedType} {refinement : Formula} {t : RefinedType} {unknown : String}
    (inside : t ∈ arguments) (member : unknown ∈ env.lastingUnknowns t) :
    unknown ∈ env.lastingUnknowns (.scalar base arguments refinement) := by
  rw [lastingUnknowns, lastingUnknownsAll_eq_flatMap]
  exact List.mem_append_right _ (List.mem_flatMap.mpr ⟨t, inside, member⟩)

theorem forall_mem_freshCopies (env : Environment) {property : RefinedType → Prop}
    {ts : List RefinedType}
    (each : ∀ t ∈ ts, ∀ supply, property ((env.freshCopy t).run supply).1)
    (supply : NameSupply) :
    ∀ copy ∈ ((env.freshCopies ts).run supply).1, property copy := by
  induction ts generalizing supply with
  | nil => exact List.forall_mem_nil _
  | cons t rest induction =>
      rw [run_freshCopies_cons]
      exact List.forall_mem_cons.mpr ⟨each t List.mem_cons_self supply,
        induction (fun other member => each other (List.mem_cons_of_mem _ member)) _⟩

/-- All unknowns of a copy are new, and none belongs to a free variable. -/
theorem tidy_freshCopy (env : Environment) {t : RefinedType} (tidy : t.Tidy covers)
    (supply : NameSupply) :
    ((env.freshCopy t).run supply).1.Tidy
      (· ∈ env.lastingUnknowns ((env.freshCopy t).run supply).1) := by
  induction t using Skeleton.induction generalizing supply with
  | function name argument result first second =>
      rw [tidy_function] at tidy
      rw [run_freshCopy_function, tidy_function]
      exact ⟨(first tidy.1 supply).mono fun _ => List.mem_append_left _,
        (second tidy.2 _).mono fun _ => List.mem_append_right _⟩
  | scalar base arguments refinement induction =>
      rw [tidy_scalar] at tidy
      cases free : env.freeVar? (.scalar base arguments refinement) with
      | some name =>
          rw [run_freshCopy_of_free env supply free]
          exact tidy_atom.mpr trivial
      | none =>
          have rigid (other : Formula) : env.freeVar? (.atom base other) = none := by
            cases base with
            | typeVar name =>
                rw [tidy.2.1 name rfl] at free
                exact free
            | bool | int | data _ => rfl
          have copied : ∀ copy ∈ ((env.freshCopies arguments).run supply).1,
              copy.Tidy (· ∈ env.lastingUnknowns copy) :=
            forall_mem_freshCopies env
              (fun t inside => induction t inside (tidy.2.2 t inside)) supply
          rw [run_freshCopy_scalar env supply free, tidy_scalar]
          refine ⟨⟨?_, List.forall_mem_nil _⟩, ?_, ?_⟩
          · rw [lastingUnknowns, rigid]
            exact List.mem_append_left _ List.mem_cons_self
          · intro name isVar
            rw [tidy.2.1 name isVar]
            rfl
          · exact fun copy inside => (copied copy inside).mono fun _ =>
              mem_lastingUnknowns_argument inside

end Environment

/-! ## Assignments -/

def TypeAssignment.Tidy (covers : String → Prop) (assignment : TypeAssignment) : Prop :=
  ∀ name t, assignment.find? name = some t → RefinedType.Tidy covers t

namespace TypeAssignment.Tidy

variable {covers wider : String → Prop} {assignment : TypeAssignment}

theorem mono (tidy : assignment.Tidy covers)
    (widens : ∀ unknown, covers unknown → wider unknown) : assignment.Tidy wider :=
  fun name t found => (tidy name t found).mono widens

theorem insert (tidy : assignment.Tidy covers) (name : String) {t : RefinedType}
    (tidyType : t.Tidy covers) : TypeAssignment.Tidy covers (assignment.insert name t) := by
  intro other u found
  rw [SortedMap.find?_insert] at found
  by_cases same : other = name
  · rw [if_pos same, Option.some_inj] at found
    exact found ▸ tidyType
  · rw [if_neg same] at found
    exact tidy other u found

theorem apply (tidy : assignment.Tidy covers) {t : RefinedType}
    (tidyType : t.Tidy covers) : (assignment.apply t).Tidy covers :=
  tidyType.instantiate _ <| forall_resolveWithin (fun _ => RefinedType.Tidy covers)
    (fun name assigned found _ => (tidy name assigned found).instantiate _) _

theorem inherits (tidy : assignment.Tidy covers) :
    Inherits assignment (RefinedType.Tidy covers) where
  scalarArgument base arguments refinement whole :=
    (RefinedType.tidy_scalar.mp whole).2.2
  scalarFewer base arguments refinement whole some within := by
    rw [RefinedType.tidy_scalar] at whole ⊢
    refine ⟨whole.1, ?_, fun t member => whole.2.2 t (within member)⟩
    exact fun name isVar => List.subset_nil.mp (whole.2.1 name isVar ▸ within)
  functionArgument _ _ _ whole := (RefinedType.tidy_function.mp whole).1
  functionResult _ _ _ whole := (RefinedType.tidy_function.mp whole).2
  renameVar t old new oldType whole := whole.renameVar old new oldType
  apply t whole := tidy.apply whole

end TypeAssignment.Tidy

end Inhabit
