import Inhabit.Proofs.Unknowns.Scopes

/-! Types in which no unknown has the name of a guard.

The guards that a search draws are unknowns with numbered names. As long as no unknown
in the types that it is given is called like that, none in the types that it makes of
them is: all that it adds are copies with unknowns of their own kind. -/

namespace Inhabit

def guardName (number : Nat) : String := Stem.guard ++ toString number

theorem guardName_injective {first second : Nat}
    (equal : guardName first = guardName second) : first = second :=
  NameSupply.numbered_injective equal

theorem guardName_ne_unknown (first second : Nat) :
    guardName first ≠ Stem.unknown ++ toString second := by
  intro equal
  have letters := congrArg (fun name : String => name.toList[1]?) equal
  simp [guardName, Stem.guard, Stem.unknown, String.toList_append] at letters

/-! ## Formulas -/

namespace Formula

def GuardFree (f : Formula) : Prop := ∀ number, guardName number ∉ f.unknownOccurrences

theorem Known.guardFree {f : Formula} (known : f.Known) : f.GuardFree := by
  intro number
  rw [known]
  exact List.not_mem_nil

theorem GuardFree.and {left right : Formula} (first : left.GuardFree)
    (second : right.GuardFree) : (left.and right).GuardFree :=
  and_cases first second fun number member =>
    (List.mem_append.mp member).elim (first number) (second number)

theorem unknownOccurrences_substitute {substitution : Substitution}
    (renames : substitution.Renames) (f : Formula) :
    (f.substitute substitution).unknownOccurrences = f.unknownOccurrences := by
  induction f using Formula.induction with
  | bool | int | unknown => rfl
  | var sort name =>
      have isVariable := isVariable_substitute renames (f := .var sort name) rfl
      revert isVariable
      cases (Formula.var sort name).substitute substitution with
      | var => exact fun _ => rfl
      | _ => exact nofun
  | unary op f induction | measure sort name f induction => exact induction
  | binary op f g first second => exact congrArg₂ (· ++ ·) first second
  | ite f g h first second third =>
      exact congrArg₂ (· ++ ·) first (congrArg₂ (· ++ ·) second third)

theorem unknownOccurrences_instantiateSorts (sorts : SortAssignment) (f : Formula) :
    (f.instantiateSorts sorts).unknownOccurrences = f.unknownOccurrences := by
  induction f using Formula.induction with
  | bool | int | var | unknown => rfl
  | unary op f induction | measure sort name f induction => exact induction
  | binary op f g first second => exact congrArg₂ (· ++ ·) first second
  | ite f g h first second third =>
      exact congrArg₂ (· ++ ·) first (congrArg₂ (· ++ ·) second third)

end Formula

/-! ## Types -/

namespace RefinedType

open Skeleton

def GuardFree (t : RefinedType) : Prop := ∀ number, guardName number ∉ t.unknownOccurrences

theorem guardFree_scalar {base : BaseType} {arguments : List RefinedType}
    {refinement : Formula} :
    GuardFree (.scalar base arguments refinement) ↔
      refinement.GuardFree ∧ ∀ t ∈ arguments, GuardFree t := by
  simp only [GuardFree, Formula.GuardFree, unknownOccurrences,
    unknownOccurrencesAll_eq_flatMap, List.mem_append, List.mem_flatMap, not_or, not_exists,
    not_and, forall_and]
  exact and_congr_right fun _ => ⟨fun free t inside number => free number t inside,
    fun free number t inside => free t inside number⟩

theorem guardFree_function {name : String} {argument result : RefinedType} :
    GuardFree (.function name argument result) ↔ argument.GuardFree ∧ result.GuardFree := by
  simp only [GuardFree, unknownOccurrences, List.mem_append, not_or, forall_and]

theorem guardFree_atom {base : BaseType} {refinement : Formula} :
    GuardFree (.atom base refinement) ↔ refinement.GuardFree := by
  simp [guardFree_scalar]

theorem GuardFree.addRefinement {t : RefinedType} (free : t.GuardFree) {formula : Formula}
    (freeFormula : formula.GuardFree) : (t.addRefinement formula).GuardFree := by
  cases t with
  | function name argument result => exact free
  | scalar base arguments refinement =>
      rw [guardFree_scalar] at free
      exact guardFree_scalar.mpr ⟨free.1.and freeFormula, free.2⟩

theorem GuardFree.substitute {t : RefinedType} (free : t.GuardFree)
    {substitution : Substitution} (renames : substitution.Renames) :
    (t.substitute substitution).GuardFree := by
  induction t using Skeleton.induction generalizing substitution with
  | function name argument result first second =>
      rw [guardFree_function] at free
      rw [RefinedType.substitute, guardFree_function]
      exact ⟨first free.1 renames, second free.2 (renames.erase name)⟩
  | scalar base arguments refinement induction =>
      rw [guardFree_scalar] at free
      rw [RefinedType.substitute, substituteAll_eq_map, guardFree_scalar]
      refine ⟨fun number => ?_, ?_⟩
      · rw [Formula.unknownOccurrences_substitute renames]
        exact free.1 number
      · intro t member
        rcases List.mem_map.mp member with ⟨t, inside, rfl⟩
        exact induction t inside (free.2 t inside) renames

theorem GuardFree.renameVar {t : RefinedType} (free : t.GuardFree) (old new : String)
    (oldType : RefinedType) : (t.renameVar old new oldType).GuardFree := by
  cases oldType with
  | function _ _ _ => exact free
  | scalar base _ _ => exact free.substitute (List.forall_mem_singleton.mpr rfl)

theorem GuardFree.instantiate {t : RefinedType} (free : t.GuardFree) (sorts : SortAssignment)
    {image : String → Option RefinedType}
    (images : ∀ name t, image name = some t → t.GuardFree) :
    (t.instantiate sorts image).GuardFree := by
  induction t using Skeleton.induction with
  | function name argument result first second =>
      rw [guardFree_function] at free
      rw [RefinedType.instantiate, guardFree_function]
      exact free.imp first second
  | scalar base arguments refinement induction =>
      rw [guardFree_scalar] at free
      have refined : (refinement.instantiateSorts sorts).GuardFree := by
        intro number
        rw [Formula.unknownOccurrences_instantiateSorts]
        exact free.1 number
      have rigid : GuardFree (.scalar base (instantiateAll sorts image arguments)
          (refinement.instantiateSorts sorts)) := by
        rw [instantiateAll_eq_map]
        refine guardFree_scalar.mpr ⟨refined, ?_⟩
        intro t member
        rcases List.mem_map.mp member with ⟨t, inside, rfl⟩
        exact induction t inside (free.2 t inside)
      cases base with
      | bool | int | data _ => exact rigid
      | typeVar name =>
          cases arguments with
          | cons head rest => exact rigid
          | nil =>
              rw [RefinedType.instantiate]
              cases found : image name with
              | none => exact rigid
              | some t => exact (images name t found).addRefinement refined

end RefinedType

theorem Environment.guardFree_freshCopy (env : Environment) (t : RefinedType)
    (supply : NameSupply) : ((env.freshCopy t).run supply).1.GuardFree := by
  induction t using Skeleton.induction generalizing supply with
  | function name argument result first second =>
      rw [run_freshCopy_function]
      exact RefinedType.guardFree_function.mpr ⟨first supply, second _⟩
  | scalar base arguments refinement induction =>
      cases free : env.freeVar? (.scalar base arguments refinement) with
      | some name =>
          rw [run_freshCopy_of_free env supply free]
          exact RefinedType.guardFree_atom.mpr (Formula.Known.guardFree rfl)
      | none =>
          rw [run_freshCopy_scalar env supply free]
          refine RefinedType.guardFree_scalar.mpr ⟨fun number member => ?_, ?_⟩
          · exact guardName_ne_unknown _ _ (List.mem_singleton.mp member)
          · exact env.forall_mem_freshCopies (fun t inside => induction t inside) supply

namespace TypeAssignment

/-! ## Assignments -/

def GuardFree (assignment : TypeAssignment) : Prop :=
  ∀ name t, assignment.find? name = some t → RefinedType.GuardFree t

namespace GuardFree

variable {assignment : TypeAssignment}

theorem insert (free : assignment.GuardFree) (name : String) {t : RefinedType}
    (freeType : t.GuardFree) : TypeAssignment.GuardFree (assignment.insert name t) := by
  intro other u found
  rw [SortedMap.find?_insert] at found
  split at found
  · cases found
    exact freeType
  · exact free other u found

theorem apply (free : assignment.GuardFree) {t : RefinedType} (freeType : t.GuardFree) :
    (assignment.apply t).GuardFree :=
  freeType.instantiate _ <| forall_resolveWithin (fun _ => RefinedType.GuardFree)
    (fun name assigned found _ => (free name assigned found).instantiate _) _

end GuardFree

end TypeAssignment

theorem Schema.guardFree_instantiate {schema : Schema} (free : schema.body.GuardFree)
    (supply : NameSupply) : (schema.instantiate.run supply).1.GuardFree := by
  apply TypeAssignment.GuardFree.apply _ free
  intro name t found
  have member := SortedMap.mem_of_mem_entries_ofList (SortedMap.mem_entries_of_find? found)
  rcases Schema.images_are_variables _ supply _ member with ⟨typeVar, rfl⟩
  exact RefinedType.guardFree_atom.mpr (Formula.Known.guardFree rfl)

theorem guardFree_symbolType (env : Environment) (name : String) {t : RefinedType}
    (free : t.GuardFree) : (Search.symbolType env name t).GuardFree := by
  cases t with
  | function _ _ _ => exact free
  | scalar base arguments refinement =>
      unfold Search.symbolType
      dsimp only
      split
      · exact free
      · exact RefinedType.guardFree_scalar.mpr
          ⟨Formula.Known.guardFree rfl, (RefinedType.guardFree_scalar.mp free).2⟩

/-! ## Scopes -/

def Environment.GuardFree (env : Environment) : Prop :=
  ∀ arity, ∀ entry ∈ (env.symbolsOfArity arity).entries, entry.2.body.GuardFree

namespace Environment.GuardFree

variable {env : Environment}

theorem addSymbol (free : env.GuardFree) (name : String) {schema : Schema}
    (body : schema.body.GuardFree) : (env.addSymbol name schema).GuardFree := by
  intro arity entry member
  rw [symbolsOfArity_addSymbol] at member
  split at member
  · rcases Entries.mem_insert member with rfl | old
    · exact body
    · exact free arity entry old
  · exact free arity entry member

theorem addVariable (free : env.GuardFree) (name : String) {t : RefinedType}
    (type : t.GuardFree) : (env.addVariable name t).GuardFree :=
  free.addSymbol name type

theorem addConstant (free : env.GuardFree) (name : String) {schema : Schema}
    (body : schema.body.GuardFree) : (env.addConstant name schema).GuardFree :=
  have unchanged : Environment.GuardFree { env with constants := env.constants.insert name } :=
    free
  unchanged.addSymbol name body

theorem addDatatype (free : env.GuardFree) (name : String) (datatype : Datatype) :
    (env.addDatatype name datatype).GuardFree := free

theorem addTypeVar (free : env.GuardFree) (name : String) :
    (env.addTypeVar name).GuardFree := by
  unfold Environment.addTypeVar
  split <;> exact free

theorem assume (free : env.GuardFree) (formula : Formula) : (env.assume formula).GuardFree := by
  unfold Environment.assume
  split <;> exact free

theorem refute (free : env.GuardFree) (formula : Formula) : (env.refute formula).GuardFree := by
  unfold Environment.refute
  split <;> exact free

end Environment.GuardFree

/-! ## Recursive calls -/

theorem Environment.guardFree_decreasing {env : Environment} {name : String}
    {t smaller equal : RefinedType} (free : t.GuardFree)
    (decreases : env.decreasing name t = some (smaller, equal)) :
    smaller.GuardFree ∧ equal.GuardFree := by
  unfold decreasing at decreases
  split at decreases
  · cases decreases
    rw [RefinedType.guardFree_scalar] at free
    have bounded := free.1.and (Formula.Known.guardFree
      (rfl : ((Formula.value .int).atLeast (.int 0)).Known))
    exact ⟨RefinedType.guardFree_scalar.mpr ⟨bounded.and (Formula.Known.guardFree rfl), free.2⟩,
      RefinedType.guardFree_scalar.mpr ⟨free.1.and (Formula.Known.guardFree rfl), free.2⟩⟩
  · rcases Option.bind_eq_some_iff.mp decreases with ⟨metric, _, equal⟩
    cases equal
    rw [RefinedType.guardFree_scalar] at free
    exact ⟨RefinedType.guardFree_scalar.mpr ⟨free.1.and (Formula.Known.guardFree rfl), free.2⟩,
      RefinedType.guardFree_scalar.mpr ⟨free.1.and (Formula.Known.guardFree rfl), free.2⟩⟩
  · cases decreases

structure IsCall (t : RefinedType) : Prop where
  free : t.GuardFree
  isFunction : t.isFunction = true

theorem isCall_recursiveCallsWithin (env : Environment) (strategy : FixpointStrategy)
    (count : Nat) {t : RefinedType} (free : t.GuardFree) (supply : NameSupply) :
    ∀ call ∈ ((recursiveCallsWithin env strategy count t).run supply).1, IsCall call.2 := by
  refine forall_recursiveCallsWithin ?_ ?_ ?_ ?_ count free supply
  · intro name argument result whole
    rw [RefinedType.guardFree_function] at whole
    exact ⟨whole.1, fun formal => whole.2.renameVar name formal argument⟩
  · exact fun _ _ _ _ => Environment.guardFree_decreasing
  · exact fun _ _ _ _ smaller result =>
      ⟨RefinedType.guardFree_function.mpr ⟨smaller, result⟩, rfl⟩
  · exact fun _ _ _ argument call =>
      ⟨RefinedType.guardFree_function.mpr ⟨argument, call.free⟩, rfl⟩

end Inhabit
