import Inhabit.Proofs.Faults.Outcomes
import Inhabit.Proofs.Matching.Instances
import Inhabit.Proofs.Naming.Arguments

/-! The case of a constructor that is generic in its datatype has the type of the
scrutinee. -/

namespace Inhabit

/-! ## Scopes -/

/-- A sort that is a type variable is one that is bound in scope. -/
def Environment.BindsSort (env : Environment) : LogicSort → Prop
  | .var name => env.isBound name = true
  | .bool | .int | .data _ => True

/-- The constructor builds a datatype at quantified variables that differ from each other
and are not refined. It depends on no other type variable but those in scope. -/
structure Schema.Generic (env : Environment) (schema : Schema) (datatype : String)
    (parameters : List String) : Prop where
  kinded : schema.body.toTerm.WellKinded
  result : ∃ refinement, schema.body.lastType = .scalar (.data datatype)
    (parameters.map fun name => .atom (.typeVar name) .top) refinement
  distinct : parameters.Nodup
  quantified : parameters ⊆ schema.boundVars
  closed : ∀ name ∈ schema.body.typeVarOccurrences,
    name ∈ parameters ∨ name ∉ schema.boundVars ∧ env.isBound name = true

theorem Environment.rigid_fixes {env : Environment} {assignment : TypeAssignment}
    {t : RefinedType} (rigid : env.Rigid t) (sorts : t.OfSorts env.BindsSort)
    (isOpen : ∀ name, env.isBound name = true → assignment.find? name = none) :
    assignment.Fixes t where
  isOpen name occurs := isOpen name (rigid name (Skeleton.vars_subset_typeVarOccurrences _ occurs))
  settled := by
    apply sorts.mono
    intro sort bound
    cases sort with
    | bool | int | data _ => trivial
    | var name =>
        refine (TypeAssignment.find?_sorts assignment name).trans ?_
        rw [isOpen name bound]
        rfl

namespace TypeAssignment

variable {assignment : TypeAssignment} {names : List String} {types : List RefinedType}

def assignAll (assignment : TypeAssignment) (names : List String)
    (types : List RefinedType) : TypeAssignment :=
  SortedMap.insertAll assignment (names.zip types)

theorem find?_assignAll_of_not_mem {name : String} (other : name ∉ names) :
    SortedMap.find? (assignment.assignAll names types) name = assignment.find? name := by
  apply SortedMap.find?_insertAll_of_not_mem
  intro member
  rcases List.mem_map.mp member with ⟨entry, inside, rfl⟩
  exact other (List.of_mem_zip inside).1

theorem exists_find?_assignAll (length : names.length = types.length) {name : String}
    (member : name ∈ names) :
    ∃ t ∈ types, SortedMap.find? (assignment.assignAll names types) name = some t := by
  rw [← List.map_fst_zip length.le] at member
  rcases SortedMap.exists_find?_insertAll assignment member with ⟨t, inside, found⟩
  exact ⟨t, (List.of_mem_zip inside).2, found⟩

theorem map_apply_assignAll (distinct : names.Nodup) (length : names.length = types.length)
    (fixed : ∀ t ∈ types, (assignment.assignAll names types).Fixes t) :
    (names.map fun name => .atom (.typeVar name) .top).map
      (assignment.assignAll names types).apply = types := by
  have keys : (names.zip types).map Prod.fst = names := List.map_fst_zip length.le
  apply List.ext_getElem
  · rw [List.length_map, List.length_map, length]
  · intro position _ inside
    have bound : position < (names.zip types).length := by
      rw [List.length_zip]
      omega
    have member := List.getElem_mem bound
    rw [List.getElem_zip] at member
    have found := SortedMap.find?_insertAll_of_mem assignment (by rwa [keys]) member
    rw [List.getElem_map, List.getElem_map, apply, RefinedType.instantiate,
      (fixed _ (List.getElem_mem inside)).resolve found]
    exact RefinedType.addRefinement_top _

end TypeAssignment

namespace Search

variable {σ : Type} {setting : Setting σ} {memory after : Memory σ}

theorem names_subset_caseBindings (binders : List String) (signature : RefinedType) :
    ∀ binding ∈ caseBindings binders signature,
      binding.2.typeVarOccurrences ⊆ signature.typeVarOccurrences := by
  fun_induction caseBindings binders signature with
  | case1 name rest parameter argument result induction =>
      rw [Skeleton.typeVarOccurrences]
      refine List.forall_mem_cons.mpr ⟨List.subset_append_left _ _, fun binding member => ?_⟩
      have same : Skeleton.typeVarOccurrences
          (RefinedType.renameVar result parameter name argument) =
          result.typeVarOccurrences := by
        rw [← Skeleton.typeVarOccurrences_shape, RefinedType.shape_renameVar,
          Skeleton.typeVarOccurrences_shape]
      exact List.subset_append_of_subset_right _ (same ▸ induction binding member)
  | case2 => exact List.forall_mem_nil _

theorem run_bindArguments (constructorName : String) (result : RefinedType)
    {names : List String} {arguments : List RefinedType}
    (length : names.length = arguments.length) :
    bindArguments constructorName result
        (names.map fun name => .atom (.typeVar name) .top) arguments setting memory =
      (.ok (), { memory with state := { memory.state with
        assignment := memory.state.assignment.assignAll names arguments } }) := by
  induction names generalizing arguments memory with
  | nil =>
      cases arguments with
      | nil => rfl
      | cons _ _ => cases length
  | cons name rest induction =>
      cases arguments with
      | nil => cases length
      | cons argument others =>
          rw [List.map_cons, bindArguments, run_bind]
          exact induction (Nat.succ.inj length)

theorem of_matchConstructor_ok {constructorName datatype : String} {names : List String}
    {refinement : Formula} {scrutinee : RefinedType}
    (ran : matchConstructor constructorName (.scalar (.data datatype)
      (names.map fun name => .atom (.typeVar name) .top) refinement) scrutinee setting memory =
        (.ok (), after)) :
    ∃ arguments other, scrutinee = .scalar (.data datatype) arguments other ∧
      names.length = arguments.length ∧ after = { memory with state := { memory.state with
        assignment := memory.state.assignment.assignAll names arguments } } := by
  cases scrutinee with
  | function _ _ _ => cases ran
  | scalar base arguments other =>
      cases base with
      | bool | int | typeVar _ => cases ran
      | data second =>
          unfold matchConstructor at ran
          dsimp only at ran
          split at ran
          case isTrue same =>
            rcases same with ⟨rfl, length⟩
            rw [List.length_map] at length
            rw [run_bindArguments _ _ length] at ran
            cases ran
            exact ⟨arguments, other, rfl, length, rfl⟩
          case isFalse => cases ran

section Signatures

variable {env : Environment} {constructorName datatype : String} {schema : Schema}
  {parameters : List String} {scrutinee : RefinedType}
  (generic : schema.Generic env datatype parameters)

/-- What is in scope, what is quantified and what is assigned is not called like a type
variable that is yet to be drawn. -/
def Foreseen (env : Environment) (schema : Schema) (memory : Memory σ) : Prop :=
  ∀ name, name ∈ schema.boundVars ∨ env.isBound name = true ∨
    (memory.state.assignment.find? name).isSome = true → memory.names.Avoids name

include generic

theorem of_caseSignature_ok {signature : RefinedType}
    (found : env.lookup? constructorName = some schema)
    (foreseen : Foreseen env schema memory)
    (ran : caseSignature env constructorName scrutinee setting memory =
      (.ok signature, after)) :
    ∃ images supply fresh arguments other, schema.Opens memory.names supply images fresh ∧
      scrutinee = .scalar (.data datatype) arguments other ∧
      (parameters.map fresh).length = arguments.length ∧
      after.state.assignment =
        memory.state.assignment.assignAll (parameters.map fresh) arguments ∧
      signature = after.state.assignment.apply (images.apply schema.body) := by
  rcases exists_of_caseSignature_ok ran with ⟨_, foundToo, matched, rfl⟩
  cases found.symm.trans foundToo
  rcases schema.exists_opens memory.names with ⟨images, supply, fresh, equal, opens⟩
  rcases generic.result with ⟨refinement, last⟩
  rw [equal, opens.lastType (fun name occurs => foreseen name (.inl occurs)) last
    generic.quantified] at matched
  rcases of_matchConstructor_ok matched with ⟨arguments, other, rfl, length, rfl⟩
  exact ⟨images, supply, fresh, arguments, other, opens, rfl, length, rfl, by rw [equal]⟩

section Opened

variable {images : TypeAssignment} {supply : NameSupply} {fresh : String → String}
  {arguments : List RefinedType}
  (opens : schema.Opens memory.names supply images fresh)
  (foreseen : Foreseen env schema memory)
  (length : (parameters.map fresh).length = arguments.length)

include opens

theorem find?_assignAll_of_avoids {name : String} (old : memory.names.Avoids name) :
    (memory.state.assignment.assignAll (parameters.map fresh) arguments).find? name =
      memory.state.assignment.find? name := by
  apply TypeAssignment.find?_assignAll_of_not_mem
  intro member
  rcases List.mem_map.mp member with ⟨parameter, inside, equal⟩
  exact (opens.draws parameter (generic.quantified inside)).not_avoids (equal ▸ old)

include foreseen length

theorem exists_lastType_apply
    (fixed : ∀ argument ∈ arguments,
      (memory.state.assignment.assignAll (parameters.map fresh) arguments).Fixes argument) :
    ∃ refinement, Skeleton.lastType
      ((memory.state.assignment.assignAll (parameters.map fresh) arguments).apply
        (images.apply schema.body)) = .scalar (.data datatype) arguments refinement := by
  rcases generic.result with ⟨refinement, last⟩
  have instances := opens.lastType (fun name occurs => foreseen name (.inl occurs)) last
    generic.quantified
  have distinct : (parameters.map fresh).Nodup :=
    generic.distinct.map_on fun first firstOccurs second secondOccurs =>
      opens.injective first (generic.quantified firstOccurs) second
        (generic.quantified secondOccurs)
  rw [TypeAssignment.apply, RefinedType.lastType_instantiate instances]
  exact ⟨_, congrArg (Skeleton.scalar _ · _)
    (TypeAssignment.map_apply_assignAll distinct length fixed)⟩

theorem rigid_apply
    (rigid : ∀ argument ∈ arguments, env.Rigid argument)
    (fixed : ∀ argument ∈ arguments,
      (memory.state.assignment.assignAll (parameters.map fresh) arguments).Fixes argument)
    (isOpen : ∀ name, env.isBound name = true → SortedMap.find?
      (memory.state.assignment.assignAll (parameters.map fresh) arguments) name = none) :
    env.Rigid ((memory.state.assignment.assignAll (parameters.map fresh) arguments).apply
      (images.apply schema.body)) := by
  intro name occurs
  rcases RefinedType.mem_typeVarOccurrences_instantiate (opens.wellKinded.apply generic.kinded)
    occurs with ⟨old, within, stands⟩
  rcases opens.mem_typeVarOccurrences (fun name occurs => foreseen name (.inl occurs))
    generic.kinded (Skeleton.vars_subset_typeVarOccurrences _ within) with
    ⟨source, stated, ⟨free, rfl⟩ | ⟨quantified, rfl⟩⟩
  · have inScope : env.isBound old = true :=
      ((generic.closed old stated).resolve_left (free <| generic.quantified ·)).2
    rcases stands with ⟨_, rfl⟩ | ⟨u, resolved, _⟩
    · exact inScope
    · cases (TypeAssignment.resolveWithin_of_unassigned
        (isOpen old inScope) _ _).symm.trans resolved
  · have parameter : source ∈ parameters :=
      (generic.closed source stated).resolve_right (·.1 quantified)
    rcases TypeAssignment.exists_find?_assignAll length (List.mem_map_of_mem parameter) with
      ⟨argument, isArgument, found⟩
    have resolves := (fixed argument isArgument).resolve found
    rcases stands with ⟨isOpen, _⟩ | ⟨u, resolved, occurs⟩
    · cases isOpen.symm.trans resolves
    · cases resolved.symm.trans resolves
      exact rigid argument isArgument name occurs

end Opened

/-- A case of a constructor that is generic in its datatype assigns new variables only.
The result that the constructor has there is at the type arguments of the scrutinee, and
what the case binds has no other type variables than those in scope. -/
theorem caseSignature_at_scrutinee {signature : RefinedType}
    (found : env.lookup? constructorName = some schema)
    (rigid : env.Rigid scrutinee) (sorts : scrutinee.OfSorts env.BindsSort)
    (isOpen : ∀ name, env.isBound name = true → memory.state.assignment.find? name = none)
    (foreseen : Foreseen env schema memory)
    (ran : caseSignature env constructorName scrutinee setting memory =
      (.ok signature, after)) :
    memory.state.assignment.ExtendedBy after.state.assignment ∧
    (∀ name, env.isBound name = true → after.state.assignment.find? name = none) ∧
    (∃ arguments refinement other, scrutinee = .scalar (.data datatype) arguments refinement ∧
      signature.lastType = .scalar (.data datatype) arguments other) ∧
    ∀ binders, ∀ binding ∈ caseBindings binders signature, env.Rigid binding.2 := by
  rcases of_caseSignature_ok generic found foreseen ran with
    ⟨images, supply, fresh, arguments, refinement, opens, rfl, length, assigned, rfl⟩
  rw [assigned]
  have unassigned : ∀ name, env.isBound name = true → SortedMap.find?
      (memory.state.assignment.assignAll (parameters.map fresh) arguments) name = none :=
    fun name bound => (find?_assignAll_of_avoids generic opens
      (foreseen name (.inr (.inl bound)))).trans (isOpen name bound)
  have inner : ∀ argument ∈ arguments, env.Rigid argument :=
    (Environment.rigid_scalar.mp rigid).2
  have fixed : ∀ argument ∈ arguments,
      (memory.state.assignment.assignAll (parameters.map fresh) arguments).Fixes argument :=
    fun argument member => Environment.rigid_fixes (inner argument member)
      ((RefinedType.ofSorts_scalar.mp sorts).2 argument member) unassigned
  refine ⟨?_, unassigned, ?_, ?_⟩
  · intro name t old
    rw [← old]
    exact find?_assignAll_of_avoids generic opens
      (foreseen name (.inr (.inr (Option.isSome_of_eq_some old))))
  · rcases exists_lastType_apply generic opens foreseen length fixed with ⟨other, last⟩
    exact ⟨arguments, refinement, other, rfl, last⟩
  · intro binders binding member name occurs
    exact rigid_apply generic opens foreseen length inner fixed unassigned name
      (names_subset_caseBindings binders _ binding member occurs)

end Signatures

/-! ## Pairs -/

def pairOf (first second : RefinedType) : RefinedType :=
  .scalar (.data "Pair") [first, second] .top

def pairSchema : Schema :=
  let part (name : String) : RefinedType := .atom (.typeVar name) .top
  .generalize ["a", "b"]
    (.function "m" (part "a") (.function "n" (part "b") (pairOf (part "a") (part "b"))))

def twinSchema : Schema :=
  let part : RefinedType := .atom (.typeVar "a") .top
  .generalize ["a"] (.function "n" part (pairOf part part))

def pairs : Environment :=
  (((∅ : Environment).addDatatype "Pair"
    { parameters := ["a", "b"], constructors := ["pair", "twin"] }).addConstant
      "pair" pairSchema).addConstant "twin" twinSchema

theorem pairSchema_generic (env : Environment) : pairSchema.Generic env "Pair" ["a", "b"] where
  kinded := by
    simp [pairSchema, pairOf, Skeleton.toTerm, Skeleton.toTerms,
      TypeTerm.wellKinded_node_iff, TypeTerm.WellKinded.var]
  result := ⟨.top, rfl⟩
  distinct := by decide
  quantified := List.Subset.refl _
  closed := by
    have within : ∀ name ∈ pairSchema.body.typeVarOccurrences, name ∈ ["a", "b"] := by decide
    exact fun name occurs => .inl (within name occurs)

theorem pair_at_scrutinee :
    let scope := pairs.addTypeVar "c"
    let scrutinee := pairOf (.atom .int .top) (.atom (.typeVar "c") .top)
    let memory := (boxSetting true).start {}
    let ran := caseSignature scope "pair" scrutinee (boxSetting true) memory
    let signature : RefinedType := .function "m" (.atom .int .top)
      (.function "n" (.atom (.typeVar "c") .top) scrutinee)
    ran.1 = .ok signature ∧
    memory.state.assignment.ExtendedBy ran.2.state.assignment ∧
    (∀ name, scope.isBound name = true → ran.2.state.assignment.find? name = none) ∧
    (∃ arguments refinement other, scrutinee = .scalar (.data "Pair") arguments refinement ∧
      signature.lastType = .scalar (.data "Pair") arguments other) ∧
    ∀ binders, ∀ binding ∈ caseBindings binders signature, scope.Rigid binding.2 := by
  intro scope scrutinee memory ran signature
  have signed : ran.1 = .ok signature := by decide +kernel
  have foreseen : Foreseen scope pairSchema memory := by
    have avoids : ∀ name ∈ ["a", "b", "c"], memory.names.Avoids name := by
      intro name member
      refine NameSupply.avoids_of_not_prefix ?_ _
      revert name
      decide
    rintro name (quantified | bound | assigned)
    · exact avoids name (List.mem_append_left ["c"] quantified)
    · exact avoids name (List.mem_append_right ["a", "b"] (List.contains_iff_mem.mp bound))
    · cases assigned
  have plain (base : BaseType) :
      RefinedType.OfSorts scope.BindsSort (.scalar base [] .top) :=
    RefinedType.ofSorts_scalar.mpr ⟨List.forall_mem_nil _, List.forall_mem_nil _⟩
  have sorts : RefinedType.OfSorts scope.BindsSort scrutinee :=
    RefinedType.ofSorts_scalar.mpr ⟨List.forall_mem_nil _,
      List.forall_mem_cons.mpr ⟨plain _, List.forall_mem_singleton.mpr (plain _)⟩⟩
  exact ⟨signed, caseSignature_at_scrutinee (pairSchema_generic scope) rfl (by decide) sorts
    (fun _ _ => rfl) foreseen (Prod.ext signed rfl)⟩

def pairGoal : Goal where
  name := "second"
  environment := pairs.addVariable "p" (pairOf (.atom .int .top) (.atom .bool .top))
  schema := .mono (.atom .bool .top)

/-- Where a variable of the result is repeated, the last argument of the scrutinee wins, so
that a pair of a number and a truth value is matched as one of two truth values. -/
theorem twin_not_at_scrutinee :
    let scrutinee := pairOf (.atom .int .top) (.atom .bool .top)
    let memory := (boxSetting true).start {}
    let signature : RefinedType := .function "n" (.atom .bool .top)
      (pairOf (.atom .bool .top) (.atom .bool .top))
    (caseSignature pairs "twin" scrutinee (boxSetting true) memory).1 = .ok signature ∧
    (¬ ∃ arguments refinement other, scrutinee = .scalar (.data "Pair") arguments refinement ∧
      signature.lastType = .scalar (.data "Pair") arguments other) ∧
    (synthesize (boxSetting true) pairGoal {}).1.map Program.render =
      .ok "match p with pair _z6 _z7 -> _z7 | twin _z9 -> _z9" := by
  refine ⟨by decide +kernel, ?_, by decide +kernel⟩
  rintro ⟨arguments, refinement, other, scrutinee, result⟩
  cases scrutinee
  cases result

end Search

end Inhabit
