import Inhabit.Proofs.Forms.Handing
import Inhabit.Proofs.Matching.Cases
import Inhabit.Proofs.Naming.Formals

/-! The names that a constructor has for its arguments, and what a case binds.

A case binds names of its own and tells them to the types of later arguments. By then the
type arguments of the scrutinee have been put in, and if they speak of a variable of the
program that is called like an argument of the constructor, they are told the name as well.
Where they do not, the names of the arguments make no difference. -/

namespace Inhabit

open Skeleton RefinedType

namespace Search

/-! ## Bindings -/

theorem caseBindings_renameFormals {binders names : List String} {t : RefinedType}
    (known : t.Known) (spares : t.SparesFunctions) (unused : Unused names t)
    (apart : ∀ binder ∈ binders, binder ∉ t.formals ∧ binder ∉ names) :
    caseBindings binders (t.renameFormals names) = caseBindings binders t := by
  induction names generalizing t binders with
  | nil => rw [renameFormals_nil]
  | cons new rest induction =>
      cases t with
      | scalar => rfl
      | function name argument result =>
          cases binders with
          | nil => rfl
          | cons binder others =>
              rw [List.forall_mem_cons] at apart
              obtain ⟨⟨notFormal, notName⟩, later⟩ := apart
              rw [formals_function, List.mem_cons, not_or] at notFormal
              have resultKnown := (known_function.mp known).2
              have here := renameVar_renameFormals resultKnown spares.1 unused notFormal.2
              rw [renameFormals, caseBindings, caseBindings, here]
              refine congrArg _ (induction (resultKnown.renameVar name binder)
                (spares.2.renameVar resultKnown notFormal.2)
                (unused.renameVar resultKnown spares.1 fun member =>
                  notName (List.mem_cons_of_mem _ member)) fun other member => ?_)
              rw [formals_renameVar]
              exact (later other member).imp (fun absent inside =>
                absent (List.mem_cons_of_mem _ inside)) fun absent inside =>
                  absent (List.mem_cons_of_mem _ inside)

theorem getElem?_caseBindings {binders : List String} {t argument : RefinedType}
    {position : Nat} {name binder : String} (known : t.Known)
    (listed : t.parameters[position]? = some (name, argument))
    (named : binders[position]? = some binder)
    (independent : ∀ formal ∈ t.formals, formal ∉ argument.freeVars) :
    (caseBindings binders t)[position]? = some (binder, argument) := by
  induction position generalizing t binders with
  | zero =>
      cases t with
      | scalar => cases listed
      | function _ _ _ =>
          cases listed
          cases binders with
          | nil => cases named
          | cons _ _ =>
              cases named
              rfl
  | succ position induction =>
      cases t with
      | scalar => cases listed
      | function parameter first result =>
          cases binders with
          | nil => cases named
          | cons head rest =>
              rw [formals_function, List.forall_mem_cons] at independent
              have resultKnown := (known_function.mp known).2
              refine induction (resultKnown.renameVar parameter head)
                (getElem?_parameters_renameVar resultKnown listed independent.1) named ?_
              rw [formals_renameVar]
              exact independent.2

/-! ## Instances -/

end Search

def Schema.renameFormals (names : List String) : Schema → Schema
  | .mono type => .mono (type.renameFormals names)
  | .forAll name inner => .forAll name (inner.renameFormals names)

namespace Schema

theorem body_renameFormals (names : List String) (schema : Schema) :
    (schema.renameFormals names).body = schema.body.renameFormals names := by
  induction schema with
  | mono _ => rfl
  | forAll _ _ induction => exact induction

theorem boundVars_renameFormals (names : List String) (schema : Schema) :
    (schema.renameFormals names).boundVars = schema.boundVars := by
  induction schema with
  | mono _ => rfl
  | forAll name _ induction => exact congrArg (name :: ·) induction

theorem freeVars_of_mem_openings {names : List String} {supply : NameSupply} {name : String}
    {u : RefinedType} (stands : (openings names supply).resolve name = some u) :
    u.freeVars = [] := by
  refine TypeAssignment.forall_resolveWithin (fun _ u => u.freeVars = []) ?_ _ name u stands
  intro name t found image images
  have listed := SortedMap.mem_of_mem_entries_ofList (SortedMap.mem_entries_of_find? found)
  obtain ⟨entry, _, equal⟩ := List.mem_map.mp listed
  cases equal
  rw [RefinedType.instantiate]
  cases onwards : image (Stem.typeVar ++ toString entry.2) with
  | none => rfl
  | some w =>
      dsimp only
      exact (congrArg freeVars (addRefinement_top w)).trans (images _ w onwards)

theorem run_instantiate_renameFormals {names : List String} (schema : Schema)
    (length : names.length = schema.arity) (supply : NameSupply) :
    (schema.renameFormals names).instantiate.run supply =
      ((schema.instantiate.run supply).1.renameFormals names,
        (schema.instantiate.run supply).2) := by
  rw [run_instantiate, run_instantiate, body_renameFormals, boundVars_renameFormals,
    TypeAssignment.apply, instantiate_renameFormals length.le]
  · rfl
  · intro name _ u stands formal _
    rw [freeVars_of_mem_openings stands]
    exact List.not_mem_nil

end Schema

/-! ## Constructors at the type of a scrutinee -/

namespace RefinedType

theorem toTerm_lastType_rename (old new : String) (t : RefinedType) :
    (Skeleton.lastType (t.rename old new)).toTerm = t.lastType.toTerm := by
  induction t using Skeleton.induction with
  | scalar base arguments refinement _ => exact toTerm_rename old new _
  | function name argument result _ second =>
      rw [rename_function, Skeleton.lastType, Skeleton.lastType]
      split
      · rfl
      · exact second

theorem toTerm_lastType_renameFormals (names : List String) (t : RefinedType) :
    (Skeleton.lastType (t.renameFormals names)).toTerm = t.lastType.toTerm := by
  induction names generalizing t with
  | nil => rw [renameFormals_nil]
  | cons new rest induction =>
      cases t with
      | scalar => rfl
      | function name argument result =>
          exact (induction _).trans (toTerm_lastType_rename name new result)

theorem arity_renameFormals (names : List String) (t : RefinedType) :
    (t.renameFormals names).arity = t.arity := by
  induction names generalizing t with
  | nil => rw [renameFormals_nil]
  | cons new rest induction =>
      cases t with
      | scalar => rfl
      | function name argument result =>
          exact congrArg (· + 1) ((induction _).trans (arity_rename result))

end RefinedType

namespace Search

variable {σ : Type} {setting : Setting σ} {memory after : Memory σ}

theorem run_bindArguments_congr {constructorName : String} {first second : RefinedType}
    {parameters others arguments : List RefinedType}
    (same : others.map toTerm = parameters.map toTerm)
    (ran : bindArguments constructorName first parameters arguments setting memory =
      (.ok (), after)) :
    bindArguments constructorName second others arguments setting memory = (.ok (), after) := by
  induction parameters generalizing others arguments memory with
  | nil =>
      rw [List.map_nil, List.map_eq_nil_iff] at same
      subst same
      exact ran
  | cons parameter rest induction =>
      obtain ⟨other, otherRest, rfl, here, later⟩ := List.map_eq_cons_iff.mp same
      cases arguments with
      | nil =>
          rw [bindArguments] at ran ⊢
          · exact ran
          all_goals simp
      | cons argument arguments =>
          cases parameter with
          | function _ _ _ => cases ran
          | scalar base inner refinement =>
              cases base with
              | bool | int | data _ => cases ran
              | typeVar name =>
                  cases inner with
                  | cons _ _ => cases ran
                  | nil =>
                      obtain ⟨_, _, rfl, bare⟩ := toTerm_eq_scalar here
                      rw [List.map_nil, List.map_eq_nil_iff] at bare
                      subst bare
                      rw [bindArguments, run_bind] at ran ⊢
                      exact induction later ran

theorem run_matchConstructor_congr {constructorName : String}
    {first second scrutinee : RefinedType} (same : second.toTerm = first.toTerm)
    (ran : matchConstructor constructorName first scrutinee setting memory = (.ok (), after)) :
    matchConstructor constructorName second scrutinee setting memory = (.ok (), after) := by
  cases first with
  | function _ _ _ => cases ran
  | scalar base parameters refinement =>
      obtain ⟨others, _, rfl, inside⟩ := toTerm_eq_scalar same
      have length : others.length = parameters.length := by
        simpa using congrArg List.length inside
      cases scrutinee with
      | function _ _ _ => cases base <;> cases ran
      | scalar otherBase arguments otherRefinement =>
          cases base with
          | bool | int | typeVar _ => cases ran
          | data datatype =>
              cases otherBase with
              | bool | int | typeVar _ => cases ran
              | data _ =>
                  rw [matchConstructor] at ran ⊢
                  split at ran
                  · rename_i agrees
                    rw [if_pos (length ▸ agrees)]
                    exact run_bindArguments_congr inside ran
                  · cases ran

section Signatures

variable {env other : Environment} {constructorName : String} {schema : Schema}
  {names : List String} {scrutinee signature : RefinedType}

/-- The constructor whose arguments are called otherwise has the same signature, but for the
names, if nothing that type variables stand for speaks of them. -/
theorem caseSignature_renameFormals (found : env.lookup? constructorName = some schema)
    (renamed : other.lookup? constructorName = some (schema.renameFormals names))
    (length : names.length = schema.arity)
    (ran : caseSignature env constructorName scrutinee setting memory =
      (.ok signature, after))
    (uncaptured : ∀ name ∈ (schema.instantiate.run memory.names).1.toTerm.vars,
      ∀ u ∈ after.state.assignment.resolve name, ∀ formal ∈ signature.formals,
        formal ∉ u.freeVars) :
    caseSignature other constructorName scrutinee setting memory =
      (.ok (signature.renameFormals names), after) := by
  obtain ⟨_, foundToo, matched, rfl⟩ := exists_of_caseSignature_ok ran
  cases found.symm.trans foundToo
  have instances := schema.run_instantiate_renameFormals length memory.names
  have enough : names.length ≤ (schema.instantiate.run memory.names).1.arity := by
    rw [schema.arity_instantiate, length]
  have applied : after.state.assignment.apply
      ((schema.instantiate.run memory.names).1.renameFormals names) =
        (after.state.assignment.apply (schema.instantiate.run memory.names).1).renameFormals
          names :=
    instantiate_renameFormals enough fun name occurs u stands formal isFormal =>
      uncaptured name occurs u stands formal (formals_subset_instantiate _ _ _ isFormal)
  have drawn : (naming (schema.renameFormals names).instantiate : Search σ RefinedType) setting
      memory = (.ok ((schema.instantiate.run memory.names).1.renameFormals names),
        { memory with names := (schema.instantiate.run memory.names).2 }) := by
    change (Except.ok ((schema.renameFormals names).instantiate.run memory.names).1,
      { memory with names := ((schema.renameFormals names).instantiate.run memory.names).2 }) = _
    rw [instances]
  have matchedToo := run_matchConstructor_congr (toTerm_lastType_renameFormals names _) matched
  unfold caseSignature
  rw [renamed]
  dsimp only
  rw [run_bind, drawn]
  dsimp only
  rw [run_bind, matchedToo]
  dsimp only
  rw [← applied]
  rfl

/-- What a case binds does not depend on how the constructor calls its arguments, and a type
that a type variable stands for is bound as it is, if those types speak of no argument. -/
theorem case_binders_ignore_formals (found : env.lookup? constructorName = some schema)
    (renamed : other.lookup? constructorName = some (schema.renameFormals names))
    (length : names.length = schema.arity)
    (ran : caseSignature env constructorName scrutinee setting memory =
      (.ok signature, after))
    (known : signature.Known) (spares : signature.SparesFunctions)
    (unused : signature.Unused names)
    (uncaptured : ∀ name ∈ (schema.instantiate.run memory.names).1.toTerm.vars,
      ∀ u ∈ after.state.assignment.resolve name, ∀ formal ∈ signature.formals,
        formal ∉ u.freeVars) :
    (∃ otherSignature,
      caseSignature other constructorName scrutinee setting memory =
        (.ok otherSignature, after) ∧
      otherSignature.arity = signature.arity ∧
      ∀ binders, (∀ binder ∈ binders, binder ∉ signature.formals ∧ binder ∉ names) →
        caseBindings binders otherSignature = caseBindings binders signature) ∧
    ∀ (binders : List String) (position : Nat) (binder formal typeVar : String)
      (u : RefinedType), binders[position]? = some binder →
      (schema.instantiate.run memory.names).1.parameters[position]? =
        some (formal, Skeleton.atom (.typeVar typeVar) Formula.top) →
      after.state.assignment.resolve typeVar = some u →
        (caseBindings binders signature)[position]? = some (binder, u) := by
  refine ⟨⟨_, caseSignature_renameFormals found renamed length ran uncaptured,
    arity_renameFormals names signature, fun binders apart =>
      caseBindings_renameFormals known spares unused apart⟩, ?_⟩
  intro binders position binder formal typeVar u named listed stands
  have independent : ∀ formal ∈ signature.formals, formal ∉ u.freeVars :=
    uncaptured typeVar (vars_parameter_subset listed (List.mem_singleton_self typeVar)) u stands
  obtain ⟨_, foundToo, _, rfl⟩ := exists_of_caseSignature_ok ran
  cases found.symm.trans foundToo
  have here : instantiate after.state.assignment.sorts after.state.assignment.resolve
      (.atom (.typeVar typeVar) .top) = u := by
    rw [instantiate, stands]
    exact addRefinement_top u
  have inSignature : (after.state.assignment.apply
      (schema.instantiate.run memory.names).1).parameters[position]? = some (formal, u) :=
    here ▸ getElem?_parameters_instantiate listed
  exact getElem?_caseBindings known inSignature named independent

end Signatures

/-! ## A captured variable -/

def flaggedType (content : RefinedType) : RefinedType :=
  .scalar (.data "Flagged") [content] .top

def flagSchema (flag content : String) : Schema :=
  let part : RefinedType := .atom (.typeVar "a") .top
  .generalize ["a"] (.function flag (.atom .bool .top) (.function content part (flaggedType part)))

def flagScope (flag content : String) : Environment :=
  (((∅ : Environment).addDatatype "Flagged"
    { parameters := ["a"], constructors := ["flag"] }).addConstant "flag"
      (flagSchema flag content)).addVariable "x" (.atom .bool (.value .bool))

def positiveIf : RefinedType := .atom .int ((Formula.var .bool "x").implies positive)

/-- Something is flagged that is positive if `x` is true, and a positive number is wanted. -/
def flagGoal (flag content : String) : Goal where
  name := "content"
  environment := (flagScope flag content).addVariable "p" (flaggedType positiveIf)
  schema := .mono (.atom .int positive)

def flagSetting : Setting BoundedTally where
  parameters :=
    { applicationDepth := 0, scrutineeDepth := 0, matchDepth := 1, conditionDepth := 0 }
  solver := .bounded 1
  sources := .none
  steps := 10

/-- The content is bound as it is, and would be if the constructor called its arguments
otherwise. -/
theorem flag_binders_ignore_formals :
    let memory := flagSetting.start {}
    let ran := caseSignature (flagScope "m" "n") "flag" (flaggedType positiveIf) flagSetting memory
    let signature : RefinedType := .function "m" (.atom .bool .top)
      (.function "n" positiveIf (flaggedType positiveIf))
    ran.1 = .ok signature ∧
    (∃ otherSignature,
      caseSignature (flagScope "v" "w") "flag" (flaggedType positiveIf) flagSetting memory =
        (.ok otherSignature, ran.2) ∧
      caseBindings ["_z1", "_z2"] otherSignature = caseBindings ["_z1", "_z2"] signature) ∧
    (caseBindings ["_z1", "_z2"] signature)[1]? = some ("_z2", positiveIf) := by
  intro memory ran signature
  have signed : ran.1 = .ok signature := by decide +kernel
  have uncaptured : ∀ name ∈ ((flagSchema "m" "n").instantiate.run memory.names).1.toTerm.vars,
      ∀ u ∈ ran.2.state.assignment.resolve name, ∀ formal ∈ signature.formals,
        formal ∉ u.freeVars := by
    decide +kernel
  have unused : signature.Unused ["v", "w"] := ⟨by decide, by decide, by decide⟩
  have renamed : (flagScope "v" "w").lookup? "flag" =
      some ((flagSchema "m" "n").renameFormals ["v", "w"]) := rfl
  obtain ⟨⟨otherSignature, otherRan, _, same⟩, content⟩ :=
    case_binders_ignore_formals rfl renamed rfl (Prod.ext signed rfl) rfl (by decide) unused
      uncaptured
  refine ⟨signed, ⟨otherSignature, otherRan, same _ (by decide)⟩, ?_⟩
  exact content ["_z1", "_z2"] 1 "_z2" "n" "_a0" positiveIf rfl (by decide +kernel)
    (by decide +kernel)

/-- An argument that is called like the variable takes its place: the content is known to be
positive only if the flag is set, and no program is found. -/
theorem flag_captures_variable :
    let bound (flag content : String) :=
      (caseSignature (flagScope flag content) "flag" (flaggedType positiveIf) flagSetting
        (flagSetting.start {})).1.map (caseBindings ["_z1", "_z2"])
    let found (flag content : String) :=
      (synthesize flagSetting (flagGoal flag content) {}).1.map Program.render
    (flagSchema "x" "n").renameFormals ["v", "w"] = flagSchema "v" "w" ∧
    bound "x" "n" = .ok [("_z1", .atom .bool .top),
      ("_z2", .atom .int ((Formula.var .bool "_z1").implies positive))] ∧
    bound "v" "w" = .ok [("_z1", .atom .bool .top), ("_z2", positiveIf)] ∧
    bound "x" "n" ≠ bound "v" "w" ∧
    found "x" "n" = .error (.failed ⟨.noSolution "content", none⟩) ∧
    found "v" "w" = .ok "match p with flag _z3 _z4 -> _z4" := by
  exact ⟨by decide +kernel, by decide +kernel, by decide +kernel, by decide +kernel,
    by decide +kernel, by decide +kernel⟩

end Search

end Inhabit
