import Inhabit.Proofs.Faults.Heads
import Inhabit.Proofs.Scoping.Extensions
import Inhabit.Proofs.Search.Signatures
import Inhabit.Proofs.Unknowns.Scopes
import Mathlib

/-! Scopes in which every listed constructor is bound and builds values of its
datatype, whatever the arguments of the datatype are.

What a search adds to a scope leaves them alone, as long as it does not bind the name
of a constructor. -/

namespace Inhabit

/-! ## Signatures of constructors -/

/-- The result of the schema is the datatype, with a type variable for each of its
parameters. -/
def Schema.Builds (schema : Schema) (name : String) (datatype : Datatype) : Prop :=
  ∃ (parameters : List RefinedType) (refinement : Formula),
    schema.body.lastType = .scalar (.data name) parameters refinement ∧
      parameters.length = datatype.parameters.length ∧
        ∀ parameter ∈ parameters, parameter.IsVariable

theorem RefinedType.lastType_instantiate {sorts : SortAssignment}
    {image : String → Option RefinedType} {t : RefinedType} {datatype : String}
    {parameters : List RefinedType} {refinement : Formula}
    (last : t.lastType = .scalar (.data datatype) parameters refinement) :
    Skeleton.lastType (t.instantiate sorts image) =
      .scalar (.data datatype) (parameters.map (instantiate sorts image))
        (refinement.instantiateSorts sorts) := by
  induction t using Skeleton.arity.induct with
  | case1 base arguments other =>
      cases last
      rw [instantiate_data]
      rfl
  | case2 name argument result induction =>
      rw [instantiate]
      exact induction last

theorem RefinedType.IsVariable.instantiate {t : RefinedType} (isVariable : t.IsVariable)
    (sorts : SortAssignment) {image : String → Option RefinedType}
    (images : ∀ name t, image name = some t → t.IsVariable) :
    (t.instantiate sorts image).IsVariable := by
  rcases isVariable with ⟨name, refinement, rfl⟩
  rw [RefinedType.instantiate]
  cases found : image name with
  | none => exact ⟨_, _, rfl⟩
  | some u =>
      rcases images name u found with ⟨last, inner, rfl⟩
      exact ⟨_, _, rfl⟩

theorem TypeAssignment.isVariable_apply {assignment : TypeAssignment}
    (toVariables : ∀ name t, assignment.find? name = some t → t.IsVariable)
    {t : RefinedType} (isVariable : t.IsVariable) : (assignment.apply t).IsVariable :=
  isVariable.instantiate _ <| forall_resolveWithin (fun _ => RefinedType.IsVariable)
    (fun name assigned found _ => (toVariables name assigned found).instantiate _) _

theorem Schema.exists_images (schema : Schema) (supply : NameSupply) :
    ∃ images : TypeAssignment,
      (∀ name t, images.find? name = some t → RefinedType.IsVariable t) ∧
        (schema.instantiate.run supply).1 = images.apply schema.body := by
  refine ⟨_, ?_, rfl⟩
  intro name t found
  have member := SortedMap.mem_of_mem_entries_ofList (SortedMap.mem_entries_of_find? found)
  rcases Schema.images_are_variables _ supply _ member with ⟨typeVar, equal⟩
  exact ⟨typeVar, _, equal⟩

/-- However its variables are named, the schema is an instance for every scrutinee of
the datatype. -/
theorem Schema.Builds.constructs {schema : Schema} {name : String} {datatype : Datatype}
    (builds : schema.Builds name datatype) (supply : NameSupply)
    {arguments : List RefinedType} (refinement : Formula)
    (length : arguments.length = datatype.parameters.length) :
    RefinedType.Constructs (schema.instantiate.run supply).1.lastType
      (.scalar (.data name) arguments refinement) := by
  rcases builds with ⟨parameters, inner, last, count, generic⟩
  rcases schema.exists_images supply with ⟨images, toVariables, equal⟩
  rw [equal, TypeAssignment.apply, RefinedType.lastType_instantiate last]
  apply RefinedType.Constructs.ofDatatype
  · rw [List.length_map, count, length]
  · intro parameter member
    rcases List.mem_map.mp member with ⟨original, inside, rfl⟩
    exact TypeAssignment.isVariable_apply toVariables (generic original inside)

/-! ## Scopes -/

namespace Environment

def Lists (env : Environment) (name : String) : Prop :=
  ∃ entry ∈ env.datatypes.entries, name ∈ entry.2.constructors

/-- Every constructor that a datatype lists builds its values. -/
def BindsConstructors (env : Environment) : Prop :=
  ∀ name datatype, (name, datatype) ∈ env.datatypes.entries →
    ∀ constructorName ∈ datatype.constructors,
      ∃ schema, env.lookup? constructorName = some schema ∧ schema.Builds name datatype

theorem lookup?_addSymbol_of_ne {env : Environment} {name other : String}
    (different : other ≠ name) (schema : Schema) :
    (env.addSymbol name schema).lookup? other = env.lookup? other := by
  apply SortedMap.findSome?_values_insert
  rw [SortedMap.find?_insert_of_ne _ different, symbolsOfArity]
  cases env.symbols.find? schema.arity with
  | none => rfl
  | some symbols => rfl

structure Offers (base env : Environment) : Prop where
  datatypes : env.datatypes = base.datatypes
  constructors : env.BindsConstructors

namespace Offers

variable {base env : Environment}

theorem addSymbol (offers : base.Offers env) {name : String} (free : ¬ base.Lists name)
    (schema : Schema) : base.Offers (env.addSymbol name schema) where
  datatypes := offers.datatypes
  constructors := by
    intro datatypeName datatype listed constructorName member
    have different : constructorName ≠ name := by
      rintro rfl
      exact free ⟨_, offers.datatypes ▸ listed, member⟩
    rw [lookup?_addSymbol_of_ne different]
    exact offers.constructors datatypeName datatype listed constructorName member

theorem of_eq (offers : base.Offers env) {other : Environment}
    (symbols : other.symbols = env.symbols) (datatypes : other.datatypes = env.datatypes) :
    base.Offers other where
  datatypes := datatypes.trans offers.datatypes
  constructors := by
    unfold BindsConstructors lookup?
    rw [symbols, datatypes]
    exact offers.constructors

theorem assume (offers : base.Offers env) (formula : Formula) :
    base.Offers (env.assume formula) := by
  unfold Environment.assume
  split
  · exact offers
  · exact offers.of_eq rfl rfl

theorem refute (offers : base.Offers env) (formula : Formula) :
    base.Offers (env.refute formula) := by
  unfold Environment.refute
  split
  · exact offers
  · exact offers.of_eq rfl rfl

theorem addTypeVar (offers : base.Offers env) (name : String) :
    base.Offers (env.addTypeVar name) := by
  unfold Environment.addTypeVar
  split
  · exact offers
  · exact offers.of_eq rfl rfl

end Offers

end Environment

/-! ## Recursive calls -/

theorem generated_recursiveCallsWithin (env : Environment) (strategy : FixpointStrategy)
    (count : Nat) (t : RefinedType) (supply : NameSupply) :
    ∀ call ∈ ((recursiveCallsWithin env strategy count t).run supply).1,
      ∃ number : Nat, call.1 = Stem.recursiveCall ++ toString number :=
  forall_recursiveCallsWithin (fun _ _ _ _ => ⟨trivial, fun _ => trivial⟩)
    (fun _ _ _ _ _ _ => ⟨trivial, trivial⟩) (fun number _ _ _ _ _ => ⟨number, rfl⟩)
    (fun _ _ _ _ => id) count (trivial : True) supply

theorem Environment.Offers.recursiveScope {base env : Environment}
    (offers : base.Offers env)
    (free : ∀ number : Nat, ¬ base.Lists (Stem.recursiveCall ++ toString number))
    (parameters : Parameters) (t : RefinedType) (supply : NameSupply) :
    base.Offers ((Inhabit.recursiveScope env parameters t).run supply).1.1 := by
  have generated :=
    generated_recursiveCallsWithin env parameters.fixpoints t.arity t supply
  change base.Offers (List.foldl _ env
    ((recursiveCallsWithin env parameters.fixpoints t.arity t).run supply).1)
  generalize ((recursiveCallsWithin env parameters.fixpoints t.arity t).run supply).1 =
    calls at generated
  generalize (if parameters.polymorphicRecursion then env.boundTypeVars else []) = typeVars
  induction calls generalizing env with
  | nil => exact offers
  | cons call rest induction =>
      rcases List.forall_mem_cons.mp generated with ⟨⟨number, equal⟩, others⟩
      apply induction _ others
      exact offers.addSymbol (equal ▸ free number) _

end Inhabit
