import Inhabit.Proofs.Guards.Unknowns
import Inhabit.Proofs.Scoping.Qualifiers
import Inhabit.Proofs.Search.Traces
import Inhabit.Proofs.Simplification.Preservation
import Inhabit.Proofs.Solving.Survivors

/-! What a guard can come to speak of.

A guard gets its qualifiers from the scope that it was drawn in, and candidates choose
among these. As long as nothing else has the name of a guard, a solve step adds nothing
to what the guard speaks of. -/

namespace Inhabit

/-! ## Names in scope -/

def Environment.Names (env : Environment) (name : String) : Prop :=
  ∃ type, (name, .mono type) ∈ (env.symbolsOfArity 0).entries ∨
    (name, type) ∈ env.ghosts.entries

namespace Environment

variable {env : Environment} {name : String}

theorem IsScalar.names {assignment : TypeAssignment} (isScalar : env.IsScalar assignment name) :
    env.Names name := by
  rcases isScalar with ⟨_, bound⟩
  rcases mem_scalarBindings.mp bound with ⟨type, inScope, _⟩
  exact ⟨type, inScope⟩

theorem Names.mem_keys (named : env.Names name) :
    name ∈ (env.symbolsOfArity 0).keys ∨ name ∈ env.ghosts.keys := by
  rcases named with ⟨_, inSymbols | inGhosts⟩
  · exact .inl (List.mem_map_of_mem inSymbols)
  · exact .inr (List.mem_map_of_mem inGhosts)

theorem names_addVariable {variableName : String} {type : RefinedType}
    (named : (env.addVariable variableName type).Names name) :
    name = variableName ∨ env.Names name := by
  rcases named with ⟨other, inSymbols | inGhosts⟩
  · exact (mem_symbolsOfArity_addVariable inSymbols).imp_right fun old => ⟨other, .inl old⟩
  · exact .inr ⟨other, .inr inGhosts⟩

theorem names_addGhost {ghost : String} {type : RefinedType}
    (named : (env.addGhost ghost type).Names name) : name = ghost ∨ env.Names name := by
  rcases named with ⟨other, inSymbols | inGhosts⟩
  · exact .inr ⟨other, .inl inSymbols⟩
  · exact (Entries.mem_insert inGhosts).imp (congrArg Prod.fst) fun old => ⟨other, .inr old⟩

theorem names_assume {formula : Formula} : (env.assume formula).Names = env.Names := by
  unfold assume
  split <;> rfl

theorem names_refute {formula : Formula} : (env.refute formula).Names = env.Names := by
  unfold refute
  split <;> rfl

theorem names_addTypeVar {typeVar : String} : (env.addTypeVar typeVar).Names = env.Names := by
  unfold addTypeVar
  split <;> rfl

end Environment

def Formula.SpeaksOf (f : Formula) (names : String → Prop) : Prop :=
  ∀ name ∈ f.variableOccurrences, names name

namespace Formula

variable {names : String → Prop}

theorem SpeaksOf.and {left right : Formula} (first : left.SpeaksOf names)
    (second : right.SpeaksOf names) : (left.and right).SpeaksOf names :=
  and_cases (motive := (SpeaksOf · names)) first second
    (List.forall_mem_append.mpr ⟨first, second⟩)

theorem speaksOf_conjunction {formulas : List Formula}
    (all : ∀ f ∈ formulas, f.SpeaksOf names) : (conjunction formulas).SpeaksOf names :=
  foldl_closed (motive := (SpeaksOf · names)) (fun _ _ => SpeaksOf.and) (List.forall_mem_nil _)
    all

end Formula

/-! ## Confined guards -/

/-- Unknowns whose types have to be well formed are no guards, and guards have the
property. -/
def Constraint.Orderly (onGuard : Environment → Formula → Prop) : Constraint → Prop
  | .subtype _ _ _ => True
  | .wellFormed _ type => type.GuardFree
  | .wellFormedGuard env guard => onGuard env guard

def DrawnWithin (names : String → Prop) (guard : String) (env : Environment)
    (formula : Formula) : Prop :=
  (∃ pending, formula = .unknown pending guard) → ∀ name, env.Names name → names name

namespace SearchState

structure Orderly (onGuard : Environment → Formula → Prop) (state : SearchState) : Prop where
  assignment : state.assignment.GuardFree
  pending : ∀ constraint ∈ state.pending, constraint.Orderly onGuard
  simple : ∀ constraint ∈ state.simple, constraint.Orderly onGuard

/-- The guard speaks of these names only, whatever is chosen for it. -/
structure Confines (names : String → Prop) (guard : String) (state : SearchState) :
    Prop where
  orderly : state.Orderly (DrawnWithin names guard)
  space : ∀ space, state.qualifiers.find? guard = some space →
    ∀ qualifier ∈ space.qualifiers, qualifier.SpeaksOf names
  chosen : ∀ candidate ∈ state.candidates,
    ∀ qualifier ∈ candidate.solution.chosen guard, qualifier.SpeaksOf names

theorem Confines.addPending {state : SearchState} {names : String → Prop} {guard : String}
    (confined : state.Confines names guard) {constraint : Constraint}
    (orderly : constraint.Orderly (DrawnWithin names guard)) :
    (state.addPending [constraint]).Confines names guard where
  orderly := ⟨confined.orderly.assignment, List.forall_mem_append.mpr
    ⟨confined.orderly.pending, List.forall_mem_singleton.mpr orderly⟩,
    confined.orderly.simple⟩
  space := confined.space
  chosen := confined.chosen

end SearchState

/-! ## Simplification -/

section Rewriting

variable {onGuard : Environment → Formula → Prop}

theorem Constraint.Step.parts_orderly {assignment : TypeAssignment} {constraint : Constraint}
    {parts : List Constraint} (step : constraint.Step assignment (.decompose parts))
    (free : assignment.GuardFree) (orderly : constraint.Orderly onGuard) :
    ∀ part ∈ parts, part.Orderly onGuard := by
  cases step with
  | applySubtype | decomposeScalars => simp [Constraint.Orderly]
  | decomposeFunctions => split <;> simp [Constraint.Orderly]
  | applyWellFormed env type _ => exact List.forall_mem_singleton.mpr (free.apply orderly)
  | decomposeScalar env base head tail refinement =>
      have whole := RefinedType.guardFree_scalar.mp orderly
      intro part member
      rcases List.mem_append.mp member with member | member
      · rcases List.mem_map.mp member with ⟨argument, inside, rfl⟩
        exact whole.2 argument inside
      · rw [List.mem_singleton.mp member]
        exact RefinedType.guardFree_atom.mpr whole.1
  | decomposeFunction env x argument result =>
      have whole := RefinedType.guardFree_function.mp orderly
      exact List.forall_mem_cons.mpr ⟨whole.1, List.forall_mem_singleton.mpr whole.2⟩

theorem Constraint.orderly_persists :
    Persists TypeAssignment.GuardFree (Constraint.Orderly onGuard) where
  parts free orderly step := step.parts_orderly free orderly
  copy {_ constraint name type} free _ _ names :=
    have copied := constraint.env.guardFree_freshCopy type names
    ⟨free.insert name copied, copied⟩

theorem Simplifies.orderly {before after : Workspace} {passes : Nat}
    {result : Except Failure Unit} (simplifies : Simplifies before passes result after)
    (start : before.state.Orderly onGuard) : after.state.Orderly onGuard := by
  have ended := simplifies.meets Constraint.orderly_persists
    ⟨start.assignment, start.pending, start.simple⟩
  exact ⟨ended.assignment, ended.pending, ended.simple⟩

end Rewriting

/-! ## Solving -/

/-- Candidates choose qualifiers that were proposed for the unknown and not pruned. -/
structure Solver.ChoosesProposed (solver : Solver σ) : Prop where
  prunes : solver.PrunesOnly
  initial : ∀ unknown, ∀ qualifier, qualifier ∉ solver.initial.solution.chosen unknown
  refined : ∀ clauses qualifiers program candidates memory survivors after,
    (solver.refine clauses qualifiers program candidates).run memory =
        (.ok survivors, after) →
      ∀ survivor ∈ survivors, ∀ unknown, ∀ qualifier ∈ survivor.solution.chosen unknown,
        (∃ candidate ∈ candidates, qualifier ∈ candidate.solution.chosen unknown) ∨
          ∃ space, SortedMap.find? qualifiers unknown = some space ∧
            qualifier ∈ space.qualifiers

theorem Solver.choosesProposed_bounded (bound : Int64) :
    (Solver.bounded bound).ChoosesProposed where
  prunes space memory pruned after ran := by
    cases ran
    intro qualifier member
    exact List.mem_eraseDups.mp (List.mem_filter.mp member).1
  initial _ _ := SortedSet.not_mem_empty _
  refined clauses qualifiers program candidates memory survivors after ran survivor member
      unknown qualifier chosen := by
    rcases survives_of_bounded ran survivor member with ⟨candidate, inside, survives⟩
    have strongest := survives.weaker.fewer unknown qualifier chosen
    rcases Solution.chosen_withStrongest strongest with old | proposed
    · exact .inl ⟨candidate, inside, old⟩
    · exact .inr proposed

namespace Search

variable {σ : Type} {setting : Setting σ} {memory after : Memory σ}
  {names : String → Prop} {number : Nat}

theorem confines_insert {state : SearchState} {guard unknown : String}
    (confined : state.Confines names guard) {space : QualifierSpace}
    (speaks : unknown = guard → ∀ qualifier ∈ space.qualifiers, qualifier.SpeaksOf names) :
    SearchState.Confines names guard
      { state with qualifiers := state.qualifiers.insert unknown space } := by
  refine ⟨⟨confined.orderly.assignment, confined.orderly.pending, confined.orderly.simple⟩,
    ?_, confined.chosen⟩
  intro recorded found
  rw [SortedMap.find?_insert] at found
  split at found
  · rename_i same
    cases found
    exact speaks same.symm
  · exact confined.space recorded found

theorem suits_confines (only : setting.solver.PrunesOnly)
    (isLocal : setting.sources.Local) {constraint : Constraint}
    (orderly : constraint.Orderly (DrawnWithin names (guardName number))) :
    Suits setting (·.Confines names (guardName number)) constraint := by
  intro before _ _ change state confined
  cases change with
  | again => exact confined.addPending trivial
  | clause =>
      exact ⟨⟨confined.orderly.assignment, confined.orderly.pending,
        confined.orderly.simple⟩, confined.space, confined.chosen⟩
  | refinement env base occurs prunes =>
      -- The types that are given have no such unknown, and copies have others.
      apply confines_insert confined
      rintro rfl
      exact absurd occurs (RefinedType.guardFree_atom.mp orderly number)
  | guard env pending prunes =>
      apply confines_insert confined
      rintro rfl qualifier member name occurs
      rcases isLocal.guards _ qualifier (only.subset prunes member) name occurs with
        ⟨term, isTerm, inTerm⟩
      have isScalar := Environment.mem_scalarBindings_of_scalars isTerm inTerm
      exact orderly ⟨pending, rfl⟩ name (Environment.IsScalar.names isScalar)

theorem confined_lowerAll (prunes : setting.solver.PrunesOnly) (isLocal : setting.sources.Local)
    (confined : memory.state.Confines names (guardName number)) :
    (lowerAll setting memory).2.state.Confines names (guardName number) := by
  apply keeps_lowerAll confined
  · exact fun _ confined => ⟨⟨confined.orderly.assignment, confined.orderly.pending,
      List.forall_mem_nil _⟩, confined.space, confined.chosen⟩
  · exact fun constraint member =>
      suits_confines prunes isLocal (confined.orderly.simple constraint member)

theorem confined_solve (chooses : setting.solver.ChoosesProposed)
    (isLocal : setting.sources.Local) {program : Program}
    (ran : solve program setting memory = (.ok (), after))
    (confined : memory.state.Confines names (guardName number)) :
    after.state.Confines names (guardName number) := by
  rcases exists_of_bind_ok ran with ⟨passes, simplified, simplifies, ran⟩
  rcases exists_of_bind_ok ran with ⟨_, lowered, lowers, refines⟩
  have afterSimplifying : simplified.state.Confines names (guardName number) := by
    have untouched := (run_rewrite_simplifyAll_advances setting memory).2
    rw [simplifies] at untouched
    rcases run_rewrite_simplifyAll simplifies nofun with ⟨_, _, relation, _⟩
    refine ⟨relation.orderly confined.orderly, ?_, ?_⟩
    · have same : simplified.state.qualifiers = memory.state.qualifiers :=
        congrArg Prod.fst untouched
      rw [same]
      exact confined.space
    · have same : simplified.state.candidates = memory.state.candidates :=
        congrArg (·.2.2) untouched
      rw [same]
      exact confined.chosen
  have afterLowering : lowered.state.Confines names (guardName number) := by
    have kept := confined_lowerAll chooses.prunes isLocal afterSimplifying
    rwa [lowers] at kept
  rcases of_refineCandidates_ok refines with ⟨first, rest, asked, equal⟩
  have orderly := afterLowering.orderly
  rw [equal]
  refine ⟨⟨orderly.assignment, orderly.pending, orderly.simple⟩, afterLowering.space, ?_⟩
  intro survivor member qualifier isChosen
  rcases chooses.refined _ _ _ _ _ _ _ asked survivor member _ qualifier isChosen with
    ⟨candidate, inside, old⟩ | ⟨space, found, proposed⟩
  · exact afterLowering.chosen candidate inside qualifier old
  · exact afterLowering.space space found qualifier proposed

end Search

end Inhabit
