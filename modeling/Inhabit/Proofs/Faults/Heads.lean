import Inhabit.Proofs.Unknowns.Types
import Mathlib

/-! Which datatype a type stands for under an assignment.

A variable leads to the type that it is assigned, and so on until something else than
an assigned variable is met. Only shapes matter on the way. -/

namespace Inhabit

/-! ## Shapes -/

section Shapes

variable {ρ : Type}

theorem Skeleton.shape_scalar (base : BaseType) (arguments : List (Skeleton ρ))
    (refinement : ρ) : (Skeleton.scalar base arguments refinement).shape =
      .scalar base (arguments.map Skeleton.shape) () := by
  rw [shape, mapRefinements, RefinedType.mapRefinementsAll_eq_map]
  rfl

theorem Skeleton.shape_function (name : String) (argument result : Skeleton ρ) :
    (Skeleton.function name argument result).shape =
      .function name argument.shape result.shape := rfl

theorem Skeleton.typeVarOccurrences_shape (t : Skeleton ρ) :
    t.shape.typeVarOccurrences = t.typeVarOccurrences := by
  induction t using Skeleton.induction with
  | scalar base arguments refinement induction =>
      have inside : (arguments.map shape).flatMap typeVarOccurrences =
          arguments.flatMap typeVarOccurrences := by
        rw [List.flatMap_map]
        exact List.flatMap_congr induction
      rw [shape_scalar]
      cases base <;>
        simp only [typeVarOccurrences, typeVarOccurrencesAll_eq_flatMap, inside]
  | function name argument result first second =>
      rw [shape_function, typeVarOccurrences, typeVarOccurrences, first, second]

theorem Shape.shape_refine (weakest : Bool) (s : Shape) : (s.refine weakest).shape = s := by
  induction s using Skeleton.induction generalizing weakest with
  | function name argument result first second =>
      rw [refine, Skeleton.shape_function, first, second]
  | scalar base arguments refinement induction =>
      rw [refine, RefinedType.refineAll_eq_map, Skeleton.shape_scalar, List.map_map]
      congr 1
      calc
        arguments.map (Skeleton.shape ∘ Shape.refine weakest) = arguments.map id :=
          List.map_congr_left fun t inside => induction t inside weakest
        _ = arguments := List.map_id arguments

theorem RefinedType.shape_addRefinement (formula : Formula) (t : RefinedType) :
    (t.addRefinement formula).shape = t.shape := by
  cases t with
  | function => rfl
  | scalar => rw [addRefinement, Skeleton.shape_scalar, Skeleton.shape_scalar]

theorem RefinedType.shape_substitute (substitution : Substitution) (t : RefinedType) :
    (t.substitute substitution).shape = t.shape := by
  induction t using Skeleton.induction generalizing substitution with
  | function name argument result first second =>
      rw [substitute, Skeleton.shape_function, first, second, Skeleton.shape_function]
  | scalar base arguments refinement induction =>
      rw [substitute, substituteAll_eq_map, Skeleton.shape_scalar, Skeleton.shape_scalar,
        List.map_map]
      congr 1
      exact List.map_congr_left fun t inside => induction t inside substitution

theorem RefinedType.shape_renameVar (t : RefinedType) (old new : String)
    (oldType : RefinedType) : (t.renameVar old new oldType).shape = t.shape := by
  cases oldType with
  | function => rfl
  | scalar => exact shape_substitute _ t

theorem RefinedType.instantiate_data (sorts : SortAssignment)
    (image : String → Option RefinedType) (datatype : String)
    (arguments : List RefinedType) (refinement : Formula) :
    RefinedType.instantiate sorts image (.scalar (.data datatype) arguments refinement) =
      .scalar (.data datatype) (arguments.map (RefinedType.instantiate sorts image))
        (refinement.instantiateSorts sorts) := by
  rw [← instantiateAll_eq_map]
  rfl

end Shapes

namespace TypeAssignment

def ExtendedBy (before after : TypeAssignment) : Prop :=
  ∀ name t, before.find? name = some t → after.find? name = some t

theorem ExtendedBy.trans {before middle after : TypeAssignment}
    (early : before.ExtendedBy middle) (late : middle.ExtendedBy after) :
    before.ExtendedBy after :=
  fun name t found => late name t (early name t found)

theorem extendedBy_insert {assignment : TypeAssignment} {name : String}
    (isOpen : assignment.find? name = none) (t : RefinedType) :
    assignment.ExtendedBy (assignment.insert name t) := by
  intro other u found
  have different : other ≠ name := by
    rintro rfl
    cases isOpen.symm.trans found
  rw [SortedMap.find?_insert_of_ne _ different, found]

/-! ## Links -/

/-- So many links lead from the shape to the datatype, with so many arguments. -/
inductive Reaches (assignment : TypeAssignment) (datatype : String) (count : Nat) :
    (links : Nat) → Shape → Prop where
  | here {arguments : List Shape} (length : arguments.length = count) :
      Reaches assignment datatype count 0 (.scalar (.data datatype) arguments ())
  | link {links : Nat} {name : String} {t : RefinedType}
      (assigned : assignment.find? name = some t)
      (further : Reaches assignment datatype count links t.shape) :
      Reaches assignment datatype count (links + 1) (.atom (.typeVar name) ())

section Links

variable {assignment before after : TypeAssignment} {datatype : String}
  {count links : Nat}

theorem Reaches.mono {s : Shape} (extended : before.ExtendedBy after)
    (reaches : before.Reaches datatype count links s) :
    after.Reaches datatype count links s := by
  induction reaches with
  | here length => exact .here length
  | link assigned _ induction => exact .link (extended _ _ assigned) induction

theorem Reaches.unique {other : Nat} {s : Shape}
    (first : assignment.Reaches datatype count links s)
    (second : assignment.Reaches datatype count other s) : links = other := by
  induction first generalizing other with
  | here => cases second with | here => rfl
  | link assigned _ induction =>
      cases second with
      | link same further =>
          cases assigned.symm.trans same
          exact congrArg Nat.succ (induction further)

/-- The variables on the way are different, since each has its own number of links to
go. -/
theorem Reaches.exists_names {s : Shape}
    (reaches : assignment.Reaches datatype count links s) :
    ∃ names : List String, names.length = links ∧ names.Nodup ∧ names ⊆ assignment.keys ∧
      ∀ name ∈ names, ∃ left ≤ links,
        assignment.Reaches datatype count left (.atom (.typeVar name) ()) := by
  induction reaches with
  | here => exact ⟨[], rfl, List.nodup_nil, List.nil_subset _, List.forall_mem_nil _⟩
  | @link links name t assigned further induction =>
      rcases induction with ⟨names, length, distinct, keys, nearer⟩
      have whole : assignment.Reaches datatype count (links + 1)
          (.atom (.typeVar name) ()) := .link assigned further
      have isKey : name ∈ assignment.keys :=
        List.mem_map.mpr ⟨_, SortedMap.mem_entries_of_find? assigned, rfl⟩
      have new : name ∉ names := by
        intro member
        rcases nearer name member with ⟨left, atMost, again⟩
        have equal := whole.unique again
        omega
      refine ⟨name :: names, congrArg Nat.succ length, List.nodup_cons.mpr ⟨new, distinct⟩,
        List.cons_subset.mpr ⟨isKey, keys⟩,
        List.forall_mem_cons.mpr ⟨⟨_, le_rfl, whole⟩, ?_⟩⟩
      intro other member
      rcases nearer other member with ⟨left, atMost, reaches⟩
      exact ⟨left, atMost.trans (Nat.le_succ _), reaches⟩

theorem Reaches.links_le {s : Shape} (reaches : assignment.Reaches datatype count links s) :
    links ≤ assignment.size := by
  rcases reaches.exists_names with ⟨names, rfl, distinct, keys, _⟩
  calc
    names.length ≤ assignment.keys.length := (distinct.subperm keys).length_le
    _ = assignment.size := List.length_map _

end Links

/-! ## Application -/

section Application

variable {assignment before after : TypeAssignment} {datatype : String}
  {count links : Nat} {sorts : SortAssignment}

theorem Reaches.of_instantiate {image : String → Option RefinedType}
    (images : ∀ name t links, image name = some t →
      assignment.Reaches datatype count links t.shape →
        ∃ more, assignment.Reaches datatype count more (.atom (.typeVar name) ()))
    {t : RefinedType}
    (reaches : assignment.Reaches datatype count links (t.instantiate sorts image).shape) :
    ∃ more, assignment.Reaches datatype count more t.shape := by
  cases t with
  | function => cases reaches
  | scalar base arguments refinement =>
      rw [Skeleton.shape_scalar]
      cases base with
      | bool | int => cases reaches
      | data other =>
          rw [RefinedType.instantiate_data, Skeleton.shape_scalar] at reaches
          cases reaches with
          | here length => exact ⟨0, .here (by simpa using length)⟩
      | typeVar name =>
          cases arguments with
          | cons => cases reaches
          | nil =>
              rw [RefinedType.instantiate] at reaches
              cases resolved : image name with
              | none =>
                  rw [resolved] at reaches
                  exact ⟨links, reaches⟩
              | some t =>
                  rw [resolved] at reaches
                  dsimp only at reaches
                  rw [RefinedType.shape_addRefinement] at reaches
                  exact images name t links resolved reaches

theorem Reaches.of_resolveWithin (extended : before.ExtendedBy after) {steps : Nat}
    {name : String} {t : RefinedType}
    (resolved : before.resolveWithin sorts steps name = some t)
    (reaches : after.Reaches datatype count links t.shape) :
    ∃ more, after.Reaches datatype count more (.atom (.typeVar name) ()) := by
  refine forall_resolveWithin
    (fun name t => ∀ links, after.Reaches datatype count links t.shape →
      ∃ more, after.Reaches datatype count more (.atom (.typeVar name) ()))
    (fun name assigned found image images links reaches => ?_) steps name t resolved links reaches
  have inner := fun other u links isImage => images other u isImage links
  rcases Reaches.of_instantiate inner reaches with ⟨more, further⟩
  exact ⟨more + 1, .link (extended _ _ found) further⟩

theorem Reaches.instantiate {t : RefinedType}
    (reaches : assignment.Reaches datatype count links t.shape) {steps : Nat}
    (enough : links ≤ steps) :
    ∃ arguments refinement, arguments.length = count ∧
      t.instantiate sorts (assignment.resolveWithin sorts steps) =
        .scalar (.data datatype) arguments refinement := by
  generalize shape : t.shape = s at reaches
  induction reaches generalizing t steps with
  | here length =>
      cases t with
      | function => cases shape
      | scalar base arguments refinement =>
          rw [Skeleton.shape_scalar] at shape
          cases shape
          rw [RefinedType.instantiate_data]
          exact ⟨_, _, by simpa using length, rfl⟩
  | @link links name assigned found _ induction =>
      cases t with
      | function => cases shape
      | scalar base arguments refinement =>
          rw [Skeleton.shape_scalar] at shape
          rcases steps with _ | steps
          · omega
          · rcases induction (Nat.le_of_succ_le_succ enough) rfl with
              ⟨resolved, inner, length, equal⟩
            cases arguments with
            | cons => cases shape
            | nil =>
                cases shape
                rw [RefinedType.instantiate, resolveWithin, found, Option.map_some, equal]
                exact ⟨resolved, _, length, rfl⟩

theorem Reaches.apply {t : RefinedType}
    (reaches : assignment.Reaches datatype count links t.shape) :
    ∃ arguments refinement, arguments.length = count ∧
      assignment.apply t = .scalar (.data datatype) arguments refinement :=
  reaches.instantiate reaches.links_le

end Application

/-! ## Results -/

/-- What is left of a type after so many arguments leads to the datatype. Nothing is
said of a type that shows fewer arguments. -/
def Exposes (assignment : TypeAssignment) (datatype : String) (count : Nat) :
    (depth : Nat) → Shape → Prop
  | 0, s => ∃ links, assignment.Reaches datatype count links s
  | depth + 1, s => ∀ name argument result, s = .function name argument result →
      Exposes assignment datatype count depth result

section Results

variable {before after : TypeAssignment} {datatype : String} {count : Nat}

theorem Exposes.mono (extended : before.ExtendedBy after) {depth : Nat} {s : Shape}
    (exposes : before.Exposes datatype count depth s) :
    after.Exposes datatype count depth s := by
  induction depth generalizing s with
  | zero => exact exposes.imp fun _ => .mono extended
  | succ depth induction =>
      exact fun name argument result equal => induction (exposes name argument result equal)

/-- Applying an earlier assignment leaves this for the later one to say. -/
theorem Exposes.of_apply (extended : before.ExtendedBy after) {depth : Nat}
    {t : RefinedType} (exposes : after.Exposes datatype count depth (before.apply t).shape) :
    after.Exposes datatype count depth t.shape := by
  induction depth generalizing t with
  | zero =>
      rcases exposes with ⟨links, reaches⟩
      exact reaches.of_instantiate fun _ _ _ resolved =>
        Reaches.of_resolveWithin extended resolved
  | succ depth induction =>
      rintro name argument result equal
      cases t with
      | scalar =>
          rw [Skeleton.shape_scalar] at equal
          cases equal
      | function x first second =>
          cases equal
          exact induction (exposes _ _ _ rfl)

end Results

end TypeAssignment

end Inhabit
