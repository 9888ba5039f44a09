import Inhabit.Proofs.Scoping.Extensions
import Inhabit.Proofs.Search.Lowering
import Inhabit.Proofs.Search.Solving
import Inhabit.Proofs.Simplification.Preservation
import Inhabit.Proofs.Simplification.Unifiers
import Inhabit.Search.Solve
import Inhabit.Solving.Scripted

/-! What the qualifiers speak of that a solve step records for the unknowns of
inferred types. -/

namespace Inhabit

section Runs

variable {names : String → Prop} {base : Environment}

theorem TypeAssignment.Names.insert {assignment : TypeAssignment}
    (assigned : assignment.Names names) (name : String) {type : RefinedType}
    (named : ∀ argument ∈ type.argumentNames, names argument) :
    TypeAssignment.Names names (assignment.insert name type) := by
  intro typeVar bound found argument inside
  rw [SortedMap.find?_insert] at found
  by_cases same : typeVar = name
  · rw [if_pos same, Option.some_inj] at found
    subst found
    exact named argument inside
  · rw [if_neg same] at found
    exact assigned typeVar bound found argument inside

theorem Constraint.within_persists :
    Persists (TypeAssignment.Names names) (Constraint.Within names base) where
  parts assigned within step := step.parts_within assigned within
  copy {_ constraint _ type} assigned within step supply := by
    have named : ∀ argument ∈ ((constraint.env.freshCopy type).run supply).1.argumentNames,
        names argument := by
      rw [Environment.argumentNames_freshCopy]
      exact within.types type step.binds.member
    exact ⟨assigned.insert _ named, within.scope, List.forall_mem_singleton.mpr named⟩

theorem Simplifies.within {before after : Workspace} {passes : Nat}
    {result : Except Failure Unit} (simplifies : Simplifies before passes result after)
    (assigned : before.state.assignment.Names names)
    (pending : ∀ constraint ∈ before.state.pending, constraint.Within names base) :
    after.state.qualifiers = before.state.qualifiers ∧
      (result = .ok () → ∀ constraint ∈ after.state.simple,
        constraint ∈ before.state.simple ∨ constraint.Within names base) := by
  have adds := simplifies.adds Constraint.within_persists assigned pending
  exact ⟨adds.qualifiers, fun _ => adds.simple⟩

end Runs

/-! ## Lowering -/

def Constraint.unknowns : Constraint → List String
  | .subtype _ left right => left.unknownOccurrences ++ right.unknownOccurrences
  | .wellFormed _ type => type.unknownOccurrences
  | .wellFormedGuard _ guard => guard.unknownOccurrences

def Environment.IsScalar (env : Environment) (assignment : TypeAssignment)
    (name : String) : Prop :=
  ∃ type, (name, type) ∈ env.scalarBindings assignment

def QualifierSpace.SpeaksOf (space : QualifierSpace) (inScope : String → Prop) : Prop :=
  ∀ qualifier ∈ space.qualifiers, ∀ name ∈ qualifier.variableOccurrences,
    name = valueName ∨ inScope name

theorem QualifierSpace.SpeaksOf.mono {space : QualifierSpace}
    {inScope wider : String → Prop} (speaks : space.SpeaksOf inScope)
    (widens : ∀ name, inScope name → wider name) : space.SpeaksOf wider :=
  fun qualifier member name occurs =>
    (speaks qualifier member name occurs).imp_right (widens name)

/-- What is proposed speaks of the given scalars only. -/
structure QualifierSources.Local (sources : QualifierSources) : Prop where
  guards : ∀ scalars, ∀ qualifier ∈ (sources.guards scalars).qualifiers,
    ∀ name ∈ qualifier.variableOccurrences,
      ∃ term ∈ scalars, name ∈ term.variableOccurrences
  refinements : ∀ scalars, ∀ qualifier ∈ (sources.refinements scalars).qualifiers,
    ∀ name ∈ qualifier.variableOccurrences,
      ∃ term ∈ scalars, name ∈ term.variableOccurrences

def Solver.PrunesOnly (solver : Solver σ) : Prop :=
  ∀ space memory pruned after,
    (solver.prune space).run memory = (.ok pruned, after) →
      pruned.qualifiers ⊆ space.qualifiers

theorem Solver.PrunesOnly.subset {solver : Solver σ} (only : solver.PrunesOnly)
    {space pruned : QualifierSpace} (prunes : solver.Prunes space pruned) :
    pruned.qualifiers ⊆ space.qualifiers := by
  rcases prunes with ⟨memory, after, ran⟩
  exact only space memory pruned after ran

structure Records (assignment : TypeAssignment)
    (allowed : String → QualifierSpace → Prop) (state : SearchState) : Prop where
  assignment : state.assignment = assignment
  qualifiers : ∀ unknown space, state.qualifiers.find? unknown = some space →
    allowed unknown space

namespace Search

section Lowering

variable {σ : Type} {setting : Setting σ} {assignment : TypeAssignment}
  {allowed : String → QualifierSpace → Prop}

theorem keeps_of_unchanged {change : SearchState → SearchState}
    (sameAssignment : ∀ state, (change state).assignment = state.assignment)
    (sameQualifiers : ∀ state, (change state).qualifiers = state.qualifiers) :
    Keeps setting (fun memory => Records assignment allowed memory.state)
      (modifyState change : Search σ Unit) := by
  apply Keeps.modifyState
  intro memory records
  exact ⟨(sameAssignment _).trans records.assignment,
    (sameQualifiers _).symm ▸ records.qualifiers⟩

theorem records_insert_of_speaksOf (only : setting.solver.PrunesOnly) {unknown : String}
    {inScope : String → Prop} {space pruned : QualifierSpace}
    (speaks : space.SpeaksOf inScope) (prunes : setting.solver.Prunes space pruned)
    (allows : ∀ space : QualifierSpace, space.SpeaksOf inScope → allowed unknown space)
    {state : SearchState} (records : Records assignment allowed state) :
    Records assignment allowed
      { state with qualifiers := state.qualifiers.insert unknown pruned } := by
  refine ⟨records.assignment, ?_⟩
  intro other recorded found
  rw [SortedMap.find?_insert] at found
  by_cases same : other = unknown
  · rw [if_pos same, Option.some_inj] at found
    subst same found
    exact allows pruned fun qualifier member => speaks qualifier (only.subset prunes member)
  · rw [if_neg same] at found
    exact records.qualifiers other recorded found

theorem speaksOf_of_terms {env : Environment} {value : Formula} {space : QualifierSpace}
    (isValue : value.variableOccurrences = [valueName])
    (proposed : ∀ qualifier ∈ space.qualifiers, ∀ name ∈ qualifier.variableOccurrences,
      ∃ term ∈ value :: env.scalars assignment, name ∈ term.variableOccurrences) :
    space.SpeaksOf (env.IsScalar assignment) := by
  intro qualifier member name occurs
  rcases proposed qualifier member name occurs with ⟨term, isTerm, inTerm⟩
  rcases List.mem_cons.mp isTerm with rfl | isScalar
  · rw [isValue, List.mem_singleton] at inTerm
    exact .inl inTerm
  · exact .inr (Environment.mem_scalarBindings_of_scalars isScalar inTerm)

theorem suits_records (prunes : setting.solver.PrunesOnly)
    (isLocal : setting.sources.Local) {constraint : Constraint}
    (allows : ∀ unknown ∈ constraint.unknowns, ∀ space : QualifierSpace,
      space.SpeaksOf (constraint.env.IsScalar assignment) → allowed unknown space) :
    Suits setting (Records assignment allowed) constraint := by
  intro before records _ change state later
  rw [records.assignment] at change
  cases change with
  | again | clause => exact ⟨later.assignment, later.qualifiers⟩
  | refinement env base occurs pruned =>
      exact records_insert_of_speaksOf prunes
        (speaksOf_of_terms rfl (isLocal.refinements _)) pruned
        (allows _ (List.mem_append_left _ occurs)) later
  | guard env pending pruned =>
      refine records_insert_of_speaksOf prunes ?_ pruned (allows _ List.mem_cons_self) later
      apply speaksOf_of_terms (rfl : (Formula.value .bool).variableOccurrences = _)
      intro qualifier member name occurs
      rcases isLocal.guards _ qualifier member name occurs with ⟨term, isTerm, inTerm⟩
      exact ⟨term, List.mem_cons_of_mem _ isTerm, inTerm⟩

/-- The spaces of all unknowns of the constraints that speak of their scopes are
allowed. -/
def Allows (assignment : TypeAssignment) (allowed : String → QualifierSpace → Prop)
    (constraints : List Constraint) : Prop :=
  ∀ constraint ∈ constraints, ∀ unknown ∈ constraint.unknowns,
    ∀ space : QualifierSpace, space.SpeaksOf (constraint.env.IsScalar assignment) →
      allowed unknown space

theorem records_lowerAll (prunes : setting.solver.PrunesOnly)
    (isLocal : setting.sources.Local) {memory : Memory σ}
    (records : Records assignment allowed memory.state)
    (allows : Allows assignment allowed memory.state.simple) :
    Records assignment allowed (lowerAll setting memory).2.state :=
  keeps_lowerAll records (fun _ holds => ⟨holds.assignment, holds.qualifiers⟩)
    fun constraint member => suits_records prunes isLocal (allows constraint member)

theorem keeps_refineCandidates (program : Program) :
    Keeps setting (fun memory => Records assignment allowed memory.state)
      (refineCandidates program : Search σ Unit) := by
  apply Keeps.get_bind
  intro memory _
  apply Keeps.bind
  · exact keeps_of_unchanged (fun _ => rfl) fun _ => rfl
  · intro _
    apply Keeps.ask_bind
    · exact fun _ _ records => records
    · intro _ candidates _ _
      split
      · exact Keeps.fail _
      · exact keeps_of_unchanged (fun _ => rfl) fun _ => rfl

end Lowering

theorem records_lowerAll_refineCandidates {σ : Type} {setting : Setting σ}
    {assignment : TypeAssignment} {allowed : String → QualifierSpace → Prop}
    (prunes : setting.solver.PrunesOnly) (isLocal : setting.sources.Local)
    {memory : Memory σ} (records : Records assignment allowed memory.state)
    (allows : Allows assignment allowed memory.state.simple) (program : Program) :
    Records assignment allowed
      ((do lowerAll; refineCandidates program : Search σ Unit) setting memory).2.state := by
  have lowered := records_lowerAll prunes isLocal records allows
  rw [run_bind]
  revert lowered
  rcases lowerAll setting memory with ⟨result, after⟩
  intro lowered
  cases result with
  | error _ => exact lowered
  | ok _ => exact keeps_refineCandidates program after lowered

end Search

/-! ## Solving -/

def TypeAssignment.NamesArgument (assignment : TypeAssignment) (name : String) : Prop :=
  ∃ typeVar type, assignment.find? typeVar = some type ∧ name ∈ type.argumentNames

/-- The qualifiers that a solve step records for a subtyping speak of the value, of
the scalars in its scope, and of arguments of functions in the types. -/
theorem qualifiers_speak_of_scope {setting : Setting σ} {memory after : Memory σ}
    {program : Program} {result : Except Interrupt Unit} {env : Environment}
    {left right : RefinedType} {unknown : String} {space : QualifierSpace}
    (prunes : setting.solver.PrunesOnly) (isLocal : setting.sources.Local)
    (pending : memory.state.pending = [.subtype env left right])
    (run : Search.solve program setting memory = (result, after))
    (finished : result ≠ .error .unfinished)
    (recorded : after.state.qualifiers.find? unknown = some space) :
    memory.state.qualifiers.find? unknown = some space ∨
      (∃ constraint ∈ memory.state.simple, unknown ∈ constraint.unknowns) ∨
      space.SpeaksOf fun name => env.IsScalar after.state.assignment name ∨
        name ∈ left.argumentNames ∨ name ∈ right.argumentNames ∨
        memory.state.assignment.NamesArgument name := by
  let names (name : String) : Prop := name ∈ left.argumentNames ∨
    name ∈ right.argumentNames ∨ memory.state.assignment.NamesArgument name
  have within : ∀ constraint ∈ memory.state.pending, constraint.Within names env := by
    rw [pending]
    intro constraint member
    rw [List.mem_singleton] at member
    rw [member]
    refine ⟨.base, ?_⟩
    intro t isSide name inside
    rcases List.mem_cons.mp isSide with rfl | isSide
    · exact .inl inside
    · rw [List.mem_singleton.mp isSide] at inside
      exact .inr (.inl inside)
  have assigned : memory.state.assignment.Names names :=
    fun typeVar type found name inside => .inr (.inr ⟨typeVar, type, found, inside⟩)
  -- If simplification fails nothing has been recorded, and otherwise what it leaves is
  -- lowered.
  unfold Search.solve at run
  rw [Search.run_bind] at run
  rcases simplified : (Search.rewrite simplifyAll : Search σ Nat) setting memory with
    ⟨outcome, middle⟩
  rw [simplified] at run
  cases outcome with
  | error interrupt =>
      cases run
      have different : (.error interrupt : Except Interrupt Nat) ≠ .error .unfinished := by
        rintro ⟨⟩
        exact finished rfl
      rcases Search.run_rewrite_simplifyAll simplified different with
        ⟨_, _, simplifies, _⟩
      exact .inl ((simplifies.within assigned within).1 ▸ recorded)
  | ok passes =>
      rcases Search.run_rewrite_simplifyAll simplified nofun with
        ⟨_, ended, simplifies, equal⟩
      have succeeded : ended = .ok () := by
        cases ended with
        | ok _ => rfl
        | error _ => cases equal
      rcases simplifies.within assigned within with ⟨unchanged, simple⟩
      let allowed (unknown : String) (space : QualifierSpace) : Prop :=
        memory.state.qualifiers.find? unknown = some space ∨
          (∃ constraint ∈ memory.state.simple, unknown ∈ constraint.unknowns) ∨
          space.SpeaksOf fun name =>
            env.IsScalar middle.state.assignment name ∨ names name
      have allows : Search.Allows middle.state.assignment allowed middle.state.simple := by
        intro constraint member unknown occurs space speaks
        rcases simple succeeded constraint member with old | inside
        · exact .inr (.inl ⟨constraint, old, occurs⟩)
        · refine .inr (.inr (speaks.mono ?_))
          rintro name ⟨type, bound⟩
          exact (inside.scope.mem_scalarBindings bound).imp_left fun old => ⟨type, old⟩
      have records : Records middle.state.assignment allowed middle.state :=
        ⟨rfl, fun unknown space found => .inl (unchanged ▸ found)⟩
      have final := Search.records_lowerAll_refineCandidates prunes isLocal records allows
        program
      dsimp only at run
      rw [run] at final
      rw [final.assignment]
      exact final.qualifiers unknown space recorded

section Leak

def nonNegative : QualifierSources where
  guards _ := .empty
  refinements scalars := .ofList (scalars.map fun term => term.atLeast (.int 0))

private theorem nonNegative_local : nonNegative.Local where
  guards _ _ member := nomatch member
  refinements scalars qualifier member name occurs := by
    rcases List.mem_map.mp member with ⟨term, isTerm, rfl⟩
    refine ⟨term, isTerm, ?_⟩
    simpa [Formula.atLeast, Formula.variableOccurrences] using occurs

private theorem prunesOnly_fixed (accept : Bool) : (Solver.fixed accept).PrunesOnly := by
  intro space memory pruned after answer
  cases answer
  exact List.Subset.refl _

/-- The result of the left function is free, and bound where an argument `y` of the
right one is in scope. -/
def freeResult : RefinedType :=
  .function "x" (.atom .int .top) (.atom (.typeVar "a") .top)

def numberResult : RefinedType :=
  .function "y" (.atom .int .top) (.atom .int .top)

def leakSetting : Setting Record where
  parameters := {}
  solver := .fixed true
  sources := nonNegative
  steps := 10

def leakMemory : Memory Record where
  state := (SearchState.start (Solver.fixed true).initial).addPending
    [.subtype ∅ freeResult numberResult]
  solver := {}

def leakSpace : QualifierSpace :=
  .ofList [(Formula.value .int).atLeast (.int 0), (Formula.var .int "y").atLeast (.int 0)]

private theorem recorded_leakSpace :
    (Search.solve default leakSetting leakMemory).2.state.qualifiers.find? "_u0" =
      some leakSpace := by
  decide +kernel

theorem leakSpace_speaks :
    leakSpace.SpeaksOf fun name =>
      (∅ : Environment).IsScalar
          (Search.solve default leakSetting leakMemory).2.state.assignment name ∨
        name ∈ freeResult.argumentNames ∨ name ∈ numberResult.argumentNames ∨
        leakMemory.state.assignment.NamesArgument name := by
  rcases ended : Search.solve default leakSetting leakMemory with ⟨result, after⟩
  have succeeds : (Search.solve default leakSetting leakMemory).1.toOption = some () := by
    decide +kernel
  have recorded := recorded_leakSpace
  rw [ended] at succeeds recorded
  have finished : result ≠ .error .unfinished := by
    rintro rfl
    cases succeeds
  rcases qualifiers_speak_of_scope (prunesOnly_fixed true) nonNegative_local rfl ended
      finished recorded with old | ⟨_, kept, _⟩ | speaks
  · cases old
  · cases kept
  · exact speaks

/-- The type of a variable that the surrounding scope shares speaks of an argument
that is not in that scope. -/
theorem leakSpace_escapes :
    leakSetting.solver.PrunesOnly ∧ leakSetting.sources.Local ∧
    leakMemory.state.pending = [.subtype ∅ freeResult numberResult] ∧
    leakMemory.state.simple = [] ∧
    ∃ after : Memory Record,
      Search.solve default leakSetting leakMemory = (.ok (), after) ∧
      "a" ∈ freeResult.typeVars ∧
      after.state.assignment.find? "a" = some (.atom .int (.unknown [] "_u0")) ∧
      after.state.qualifiers.find? "_u0" = some leakSpace ∧
      ∃ qualifier ∈ leakSpace.qualifiers, "y" ∈ qualifier.variableOccurrences ∧
        "y" ≠ valueName ∧ ¬ (∅ : Environment).IsScalar after.state.assignment "y" := by
  refine ⟨prunesOnly_fixed true, nonNegative_local, rfl, rfl, ?_⟩
  rcases ended : Search.solve default leakSetting leakMemory with ⟨result, after⟩
  have succeeds : (Search.solve default leakSetting leakMemory).1.toOption = some () := by
    decide +kernel
  have assigned : (Search.solve default leakSetting leakMemory).2.state.assignment.find? "a" =
      some (.atom .int (.unknown [] "_u0")) := by
    decide +kernel
  have recorded := recorded_leakSpace
  rw [ended] at succeeds assigned recorded
  refine ⟨after, ?_, by decide, assigned, recorded,
    (Formula.var .int "y").atLeast (.int 0), by decide, by decide, by decide, ?_⟩
  · cases result with
    | ok _ => rfl
    | error _ => cases succeeds
  · rintro ⟨type, bound⟩
    cases bound

end Leak

end Inhabit
