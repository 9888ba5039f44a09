import Inhabit.Proofs.Search.Solving
import Inhabit.Search.Synthesis

/-! Instantiation of a constructor at the type of a scrutinee. -/

namespace Inhabit

def RefinedType.IsVariable (t : RefinedType) : Prop :=
  ∃ name refinement, t = .atom (.typeVar name) refinement

inductive RefinedType.Constructs : (result scrutinee : RefinedType) → Prop where
  | ofDatatype {datatype : String} {parameters arguments : List RefinedType}
      (refinement other : Formula) (lengths : parameters.length = arguments.length)
      (generic : ∀ parameter ∈ parameters, parameter.IsVariable) :
      Constructs (.scalar (.data datatype) parameters refinement)
        (.scalar (.data datatype) arguments other)

namespace Search

/-- The signature of a constructor at the type of the scrutinee. -/
def caseSignature (env : Environment) (constructorName : String)
    (scrutinee : RefinedType) : Search σ RefinedType :=
  match env.lookup? constructorName with
  | none => fail ⟨.missingConstructor constructorName, some (.scope env)⟩
  | some schema => do
      let signature ← naming schema.instantiate
      matchConstructor constructorName signature.lastType scrutinee
      applyAssignment signature

theorem searchCase_eq (searchBody : BodySearch σ) (env : Environment) (subject : String)
    (scrutinee : RefinedType) (constructorName : String) (type : RefinedType)
    (found : Case Program → Search σ Program) :
    searchCase searchBody env subject scrutinee constructorName type found = (do
      let signature ← caseSignature env constructorName scrutinee
      let binders ← (List.replicate signature.arity Stem.caseBinder).mapM fresh
      let caseEnv := (caseBindings binders signature).foldl
        (fun env binding => env.addVariable binding.1 binding.2) env
      searchBody (caseEnv.assume (Environment.factAbout subject scrutinee)) type
        fun body => found { constructorName, binders, body }) := by
  unfold searchCase caseSignature
  cases env.lookup? constructorName with
  | none => rfl
  | some schema => simp only [bind_assoc]

variable {σ : Type} {setting : Setting σ} {promise : Promise σ} {memory after : Memory σ}

/-- The signature is what the assignment makes of an instance of the constructor's schema that
matches the scrutinee. -/
theorem exists_of_caseSignature_ok {env : Environment} {constructorName : String}
    {scrutinee signature : RefinedType}
    (ran : caseSignature env constructorName scrutinee setting memory =
      (.ok signature, after)) :
    ∃ schema, env.lookup? constructorName = some schema ∧
      matchConstructor constructorName (schema.instantiate.run memory.names).1.lastType
        scrutinee setting { memory with names := (schema.instantiate.run memory.names).2 } =
          (.ok (), after) ∧
      signature = after.state.assignment.apply (schema.instantiate.run memory.names).1 := by
  unfold caseSignature at ran
  cases found : env.lookup? constructorName with
  | none =>
      rw [found] at ran
      cases ran
  | some schema =>
      rw [found] at ran
      rcases exists_of_bind_ok ran with ⟨_, _, instantiates, rest⟩
      cases instantiates
      rcases exists_of_bind_ok rest with ⟨_, _, matched, applies⟩
      cases applies
      exact ⟨schema, rfl, matched, rfl⟩

def Promise.AllowsMissing (promise : Promise σ) (constructorName : String) : Prop :=
  ∀ (memory : Memory σ) context, promise.calm memory →
    promise.stopped (.failed ⟨.missingConstructor constructorName, context⟩) memory

section Binding

variable {constructorName : String} {result : RefinedType} {arguments : List RefinedType}
  {invariant : TypeAssignment → Prop} (steady : promise.Steady setting)
  (inserted : ∀ assignment name, ∀ argument ∈ arguments, invariant assignment →
    invariant (assignment.insert name argument))

include steady inserted

theorem yields_bindArguments {parameters : List RefinedType}
    (generic : (∀ parameter ∈ parameters, parameter.IsVariable) ∨
      promise.AllowsMissing constructorName)
    (start : invariant memory.state.assignment) :
    Yields setting promise (bindArguments constructorName result parameters arguments)
      memory fun _ after => ∃ assignment,
        after.state = { memory.state with assignment } ∧ invariant assignment := by
  induction parameters, arguments using bindArguments.induct generalizing memory with
  | case1 name refinement parameters argument arguments induction =>
      let bound := memory.state.assignment.insert name argument
      have holds : invariant bound := inserted _ name argument List.mem_cons_self start
      have changed : Yields setting promise (modifyState fun state =>
          { state with assignment := state.assignment.insert name argument }) memory
          fun _ after => after.state = { memory.state with assignment := bound } :=
        fun calm => ⟨steady.moved memory { memory.state with assignment := bound } rfl
          (List.Subset.refl _) calm, rfl⟩
      apply changed.bind
      intro _ middle same
      have holdsMiddle : invariant middle.state.assignment := same ▸ holds
      apply (induction _ _ holdsMiddle).mono
      · rw [same]
        exact fun _ _ => id
      · exact fun assignment name argument member =>
          inserted assignment name argument (List.mem_cons_of_mem _ member)
      · exact generic.imp_left fun all parameter member =>
          all parameter (List.mem_cons_of_mem _ member)
  | case2 parameters argument arguments parameter other =>
      have missing : promise.AllowsMissing constructorName := by
        apply generic.resolve_left
        intro all
        rcases all _ List.mem_cons_self with ⟨name, refinement, equal⟩
        exact other name refinement equal
      rw [bindArguments]
      · exact Yields.fault (missing memory _)
      · exact other
  | case3 parameters arguments other₁ other₂ =>
      rw [bindArguments]
      · exact Yields.pure ⟨_, rfl, start⟩
      all_goals assumption

omit inserted in
theorem yields_matchConstructor {scrutinee : RefinedType}
    (inserted : ∀ base arguments refinement, scrutinee = .scalar base arguments refinement →
      ∀ assignment name, ∀ argument ∈ arguments, invariant assignment →
        invariant (assignment.insert name argument))
    (constructs : result.Constructs scrutinee ∨ promise.AllowsMissing constructorName)
    (start : invariant memory.state.assignment) :
    Yields setting promise (matchConstructor constructorName result scrutinee) memory
      fun _ after => ∃ assignment,
        after.state = { memory.state with assignment } ∧ invariant assignment := by
  have mismatch {context : Option Context} (different : ¬ result.Constructs scrutinee) :
      Yields setting promise (Search.fail ⟨.missingConstructor constructorName, context⟩)
        memory fun (_ : Unit) after => ∃ assignment,
          after.state = { memory.state with assignment } ∧ invariant assignment :=
    Yields.fault (constructs.resolve_left different memory context)
  unfold matchConstructor
  split
  case h_1 datatype parameters _ other arguments refinement =>
    split
    case isTrue same =>
      apply yields_bindArguments steady (inserted _ _ _ rfl) _ start
      apply constructs.imp_left
      rintro ⟨⟩
      assumption
    case isFalse different =>
      apply mismatch
      rintro ⟨_, _, lengths, _⟩
      exact different ⟨rfl, lengths⟩
  case h_2 other =>
    apply mismatch
    rintro ⟨⟩
    exact other _ _ _ _ _ _ rfl rfl

omit inserted in
theorem yields_caseSignature {env : Environment} {scrutinee : RefinedType}
    (inserted : ∀ base arguments refinement, scrutinee = .scalar base arguments refinement →
      ∀ assignment name, ∀ argument ∈ arguments, invariant assignment →
        invariant (assignment.insert name argument))
    (constructs : (∃ schema, env.lookup? constructorName = some schema ∧
        ∀ names, RefinedType.Constructs (schema.instantiate.run names).1.lastType scrutinee) ∨
      promise.AllowsMissing constructorName)
    (start : invariant memory.state.assignment) :
    Yields setting promise (caseSignature env constructorName scrutinee) memory
      fun signature after => ∃ assignment schema, ∃ names : NameSupply,
        env.lookup? constructorName = some schema ∧
          after.state = { memory.state with assignment } ∧ invariant assignment ∧
            signature = assignment.apply (schema.instantiate.run names).1 := by
  unfold caseSignature
  split
  · rename_i missing
    apply Yields.fault
    apply constructs.resolve_left
    rintro ⟨schema, found, _⟩
    cases missing.symm.trans found
  · rename_i schema found
    apply Yields.naming_bind
    intro names
    let drawn : Memory σ := { memory with names }
    have startDrawn : invariant drawn.state.assignment := start
    have constructsHere :
        RefinedType.Constructs (schema.instantiate.run memory.names).1.lastType scrutinee ∨
          promise.AllowsMissing constructorName := by
      apply constructs.imp_left
      rintro ⟨other, foundOther, all⟩
      cases found.symm.trans foundOther
      exact all _
    apply (yields_matchConstructor steady inserted constructsHere startDrawn).bind
    rintro _ after ⟨assignment, equal, holds⟩
    apply Yields.applyAssignment_bind
    refine Yields.pure ⟨assignment, schema, memory.names, found, equal, holds, ?_⟩
    rw [equal]

omit inserted in
theorem yields_caseSignature_assigns {env : Environment} {scrutinee : RefinedType}
    (constructs : (∃ schema, env.lookup? constructorName = some schema ∧
        ∀ names, RefinedType.Constructs (schema.instantiate.run names).1.lastType scrutinee) ∨
      promise.AllowsMissing constructorName) :
    Yields setting promise (caseSignature env constructorName scrutinee) memory
      fun _ after => ∃ assignment, after.state = { memory.state with assignment } := by
  let any (_ : TypeAssignment) : Prop := True
  have start : any memory.state.assignment := trivial
  refine (yields_caseSignature steady (fun _ _ _ _ _ _ _ _ => id) constructs start).mono ?_
  rintro _ after ⟨assignment, _, _, _, equal, _⟩
  exact ⟨assignment, equal⟩

end Binding

end Search

end Inhabit
