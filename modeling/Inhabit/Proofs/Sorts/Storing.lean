import Inhabit.Proofs.Guards.Synthesis
import Inhabit.Proofs.Sorts.Assignments

/-! What a solve step stores: qualifiers and clauses, made under the assignment that it ends
with. So they are at settled sorts. -/

namespace Inhabit

/-! ## Constraints -/

structure Constraint.WellKinded (constraint : Constraint) : Prop where
  scope : constraint.env.WellKinded
  types : ∀ t ∈ constraint.types, t.toTerm.WellKinded

theorem Constraint.Step.parts_wellKinded {assignment : TypeAssignment}
    {constraint : Constraint} {parts : List Constraint}
    (step : constraint.Step assignment (.decompose parts)) (assigned : assignment.WellKinded)
    (kinded : constraint.WellKinded) : ∀ part ∈ parts, part.WellKinded := by
  have scopes := step.parts_scope _ kinded.scope fun name _ _ isSide =>
    kinded.scope.addVariable name
      (assigned.inherits.functionArgument _ _ _ (kinded.types _ isSide))
  exact fun part member => ⟨scopes part member,
    assigned.inherits.parts step kinded.types part member⟩

theorem Constraint.wellKinded_persists :
    Persists TypeAssignment.WellKinded Constraint.WellKinded where
  parts assigned kinded step := step.parts_wellKinded assigned kinded
  copy {_ constraint name type} assigned kinded step names :=
    have copied := constraint.env.wellKinded_freshCopy names
      (kinded.types type step.binds.member)
    ⟨assigned.insert name copied, kinded.scope, List.forall_mem_singleton.mpr copied⟩

/-! ## Stored formulas -/

structure HornClause.OfSorts (kind : LogicSort → Prop) (clause : HornClause) : Prop where
  antecedent : clause.antecedent.OfSorts kind
  consequent : clause.consequent.OfSorts kind

/-- The formulas that solve steps leave in a state: qualifiers, recorded or chosen, and
the sides of clauses that candidates have been checked against. -/
inductive SearchState.Stores (state : SearchState) : Formula → Prop where
  | recorded {unknown : String} {space : QualifierSpace} {qualifier : Formula}
      (found : state.qualifiers.find? unknown = some space)
      (member : qualifier ∈ space.qualifiers) : Stores state qualifier
  | chosen {candidate : Candidate} {unknown : String} {qualifier : Formula}
      (inside : candidate ∈ state.candidates)
      (member : qualifier ∈ candidate.solution.chosen unknown) : Stores state qualifier
  | antecedent {candidate : Candidate} {clause : HornClause}
      (inside : candidate ∈ state.candidates) (valid : clause ∈ candidate.validClauses) :
      Stores state clause.antecedent
  | consequent {candidate : Candidate} {clause : HornClause}
      (inside : candidate ∈ state.candidates) (valid : clause ∈ candidate.validClauses) :
      Stores state clause.consequent

/-- What is proposed uses no type variable as a sort that the given scalars do not. -/
structure QualifierSources.SortLocal (sources : QualifierSources) : Prop where
  guards : ∀ scalars, ∀ qualifier ∈ (sources.guards scalars).qualifiers, ∀ typeVar,
    qualifier.Uses (.var typeVar) → ∃ term ∈ scalars, term.Uses (.var typeVar)
  refinements : ∀ scalars, ∀ qualifier ∈ (sources.refinements scalars).qualifiers,
    ∀ typeVar, qualifier.Uses (.var typeVar) →
      ∃ term ∈ scalars, term.Uses (.var typeVar)

theorem Formula.settled_of_terms {assignment : TypeAssignment} {qualifier : Formula}
    {terms : List Formula} (settled : ∀ term ∈ terms, term.OfSorts assignment.Settled)
    (proposed : ∀ typeVar, qualifier.Uses (.var typeVar) →
      ∃ term ∈ terms, term.Uses (.var typeVar)) :
    qualifier.OfSorts assignment.Settled := by
  refine ofSorts_iff.mpr fun sort uses => ?_
  cases sort with
  | bool | int | data _ => trivial
  | var typeVar =>
      rcases proposed typeVar uses with ⟨term, member, inTerm⟩
      exact ofSorts_iff.mp (settled term member) _ inTerm

/-! ## Lowering -/

structure SearchState.LowersTo (before after : SearchState) : Prop where
  assignment : after.assignment = before.assignment
  candidates : after.candidates = before.candidates
  meets : after.Meets TypeAssignment.WellKinded Constraint.WellKinded
  recorded : ∀ unknown space, after.qualifiers.find? unknown = some space →
    before.qualifiers.find? unknown = some space ∨
      ∀ qualifier ∈ space.qualifiers, qualifier.OfSorts before.assignment.Settled
  clauses : ∀ clause ∈ after.clauses,
    clause ∈ before.clauses ∨ clause.OfSorts before.assignment.Settled

namespace Search

section Lowering

variable {σ : Type} {setting : Setting σ} {before : SearchState}

theorem settled_subtypeClause {assignment : TypeAssignment} {env : Environment}
    (acyclic : assignment.Acyclic) (assigned : assignment.WellKinded)
    (scope : env.WellKinded) (left right : Formula) :
    (subtypeClause env assignment (assignment.applyFormula left)
      (assignment.applyFormula right)).OfSorts assignment.Settled where
  antecedent := by
    apply Formula.OfSorts.and _ (acyclic.ofSorts_applyFormula assigned left)
    apply Formula.ofSorts_conjunction
    intro fact member
    exact scope.settled_positives acyclic assigned fact (SortedSet.mem_toList.mp member)
  consequent := by
    apply Formula.OfSorts.or _ (acyclic.ofSorts_applyFormula assigned right)
    apply Formula.ofSorts_disjunction
    intro fact member
    exact acyclic.settled_negatives assigned env fact (SortedSet.mem_toList.mp member)

theorem lowersTo_insert {state : SearchState} (lowers : before.LowersTo state)
    (unknown : String) {space : QualifierSpace}
    (settled : ∀ qualifier ∈ space.qualifiers, qualifier.OfSorts before.assignment.Settled) :
    before.LowersTo
      { state with qualifiers := state.qualifiers.insert unknown space } := by
  refine ⟨lowers.assignment, lowers.candidates,
    ⟨lowers.meets.assignment, lowers.meets.pending, lowers.meets.simple⟩, ?_,
    lowers.clauses⟩
  intro other recorded found
  rw [SortedMap.find?_insert] at found
  split at found
  · cases found
    exact .inr settled
  · exact lowers.recorded other recorded found

theorem suits_lowersTo (only : setting.solver.PrunesOnly)
    (isLocal : setting.sources.SortLocal) (acyclic : before.assignment.Acyclic)
    {constraint : Constraint} (kinded : constraint.WellKinded) :
    Suits setting before.LowersTo constraint := by
  intro _ started _ change state lowers
  have assigned : before.assignment.WellKinded :=
    started.assignment ▸ started.meets.assignment
  have scalars := kinded.scope.settled_scalars acyclic assigned
  rw [started.assignment] at change
  cases change with
  | again env left right =>
      refine ⟨lowers.assignment, lowers.candidates,
        ⟨lowers.meets.assignment, ?_, lowers.meets.simple⟩, lowers.recorded, lowers.clauses⟩
      exact List.forall_mem_append.mpr
        ⟨lowers.meets.pending, List.forall_mem_singleton.mpr kinded⟩
  | clause env base left right =>
      refine ⟨lowers.assignment, lowers.candidates,
        ⟨lowers.meets.assignment, lowers.meets.pending, lowers.meets.simple⟩,
        lowers.recorded, ?_⟩
      exact List.forall_mem_append.mpr ⟨lowers.clauses, List.forall_mem_singleton.mpr
        (.inr (settled_subtypeClause acyclic assigned kinded.scope left right))⟩
  | refinement env base occurs prunes =>
      have terms : ∀ term ∈ before.assignment.applyFormula (.value base.sort) ::
          env.scalars before.assignment, term.OfSorts before.assignment.Settled :=
        List.forall_mem_cons.mpr ⟨acyclic.ofSorts_applyFormula assigned _, scalars⟩
      exact lowersTo_insert lowers _ fun qualifier member => Formula.settled_of_terms terms
        (isLocal.refinements _ qualifier (only.subset prunes member))
  | guard env pending prunes =>
      exact lowersTo_insert lowers _ fun qualifier member => Formula.settled_of_terms scalars
        (isLocal.guards _ qualifier (only.subset prunes member))

theorem lowersTo_lowerAll (only : setting.solver.PrunesOnly)
    (isLocal : setting.sources.SortLocal) {memory : Memory σ}
    (acyclic : memory.state.assignment.Acyclic)
    (meets : memory.state.Meets TypeAssignment.WellKinded Constraint.WellKinded) :
    memory.state.LowersTo (lowerAll setting memory).2.state := by
  apply keeps_lowerAll ⟨rfl, rfl, meets, fun _ _ => .inl, fun _ => .inl⟩
  · exact fun _ lowers => ⟨lowers.assignment, lowers.candidates,
      ⟨lowers.meets.assignment, lowers.meets.pending, List.forall_mem_nil _⟩,
      lowers.recorded, lowers.clauses⟩
  · exact fun constraint member =>
      suits_lowersTo only isLocal acyclic (meets.simple constraint member)

end Lowering

end Search

/-! ## Solve steps -/

namespace SearchState

variable {before state : SearchState} {f : Formula}

theorem Stores.congr (stored : state.Stores f) {other : SearchState}
    (qualifiers : other.qualifiers = state.qualifiers)
    (candidates : other.candidates = state.candidates) : other.Stores f := by
  cases stored with
  | recorded found member => exact .recorded (qualifiers ▸ found) member
  | chosen inside member => exact .chosen (candidates ▸ inside) member
  | antecedent inside valid => exact .antecedent (candidates ▸ inside) valid
  | consequent inside valid => exact .consequent (candidates ▸ inside) valid

namespace LowersTo

variable {bound : Int64} {candidate survivor : Candidate} {survivors : List Candidate}

theorem stores_of_recorded (lowers : before.LowersTo state) {unknown : String}
    {space : QualifierSpace} (found : state.qualifiers.find? unknown = some space)
    (member : f ∈ space.qualifiers) :
    before.Stores f ∨ f.OfSorts before.assignment.Settled := by
  rcases lowers.recorded unknown space found with old | settled
  · exact .inl (.recorded old member)
  · exact .inr (settled f member)

theorem mem_validClauses (lowers : before.LowersTo state) (nothingNew : before.clauses = [])
    (survives : candidate.Survives bound state.clauses state.qualifiers survivor)
    {clause : HornClause} (valid : clause ∈ survivor.validClauses) :
    clause ∈ candidate.validClauses ∨ clause.OfSorts before.assignment.Settled := by
  rw [survives.checked, SortedSet.mem_insertMany] at valid
  refine valid.imp_right fun new => ?_
  rcases lowers.clauses clause new with old | settled
  · rw [nothingNew] at old
    cases old
  · exact settled

theorem stores_survivors (lowers : before.LowersTo state) (nothingNew : before.clauses = [])
    (survive : ∀ survivor ∈ survivors, ∃ candidate ∈ state.candidates,
      candidate.Survives bound state.clauses state.qualifiers survivor)
    (stored : Stores { state with clauses := [], candidates := survivors } f) :
    before.Stores f ∨ f.OfSorts before.assignment.Settled := by
  rw [lowers.candidates] at survive
  cases stored with
  | recorded found member => exact lowers.stores_of_recorded found member
  | chosen inside member =>
      rcases survive _ inside with ⟨candidate, listed, survives⟩
      rcases Solution.chosen_withStrongest (survives.weaker.fewer _ f member) with
        old | ⟨space, found, proposed⟩
      · exact .inl (.chosen listed old)
      · exact lowers.stores_of_recorded found proposed
  | antecedent inside valid =>
      rcases survive _ inside with ⟨candidate, listed, survives⟩
      exact (lowers.mem_validClauses nothingNew survives valid).imp (.antecedent listed)
        HornClause.OfSorts.antecedent
  | consequent inside valid =>
      rcases survive _ inside with ⟨candidate, listed, survives⟩
      exact (lowers.mem_validClauses nothingNew survives valid).imp (.consequent listed)
        HornClause.OfSorts.consequent

end LowersTo

end SearchState

theorem Search.stores_solve {setting : Setting BoundedTally} {bound : Int64}
    (bounded : setting.solver = .bounded bound) (isLocal : setting.sources.SortLocal)
    {program : Program} {memory after : Memory BoundedTally}
    (ran : solve program setting memory = (.ok (), after))
    (acyclic : after.state.assignment.Acyclic)
    (meets : memory.state.Meets TypeAssignment.WellKinded Constraint.WellKinded)
    (nothingNew : memory.state.clauses = []) :
    after.state.Meets TypeAssignment.WellKinded Constraint.WellKinded ∧
      after.state.clauses = [] ∧
      ∀ f, after.state.Stores f →
        memory.state.Stores f ∨ f.OfSorts after.state.assignment.Settled := by
  have only : setting.solver.PrunesOnly := by
    rw [bounded]
    exact (Solver.choosesProposed_bounded bound).prunes
  rcases exists_of_bind_ok ran with ⟨_, simplified, simplifies, ran⟩
  rcases exists_of_bind_ok ran with ⟨_, lowered, lowers, refines⟩
  rcases of_refineCandidates_ok refines with ⟨first, rest, asked, equal⟩
  rw [refinement, bounded] at asked
  rw [equal] at acyclic ⊢
  -- Simplifying leaves alone what is stored, and lowering the assignment.
  have untouched := (run_rewrite_simplifyAll_advances setting memory).2
  rw [simplifies] at untouched
  have sameQualifiers : simplified.state.qualifiers = memory.state.qualifiers :=
    congrArg Prod.fst untouched
  have sameClauses : simplified.state.clauses = memory.state.clauses :=
    congrArg (·.2.1) untouched
  have sameCandidates : simplified.state.candidates = memory.state.candidates :=
    congrArg (·.2.2) untouched
  have sameAssignment := assignment_lowerAll setting simplified
  rw [lowers] at sameAssignment
  rcases run_rewrite_simplifyAll simplifies nofun with ⟨_, _, relation, _⟩
  have lowersTo := lowersTo_lowerAll only isLocal (sameAssignment ▸ acyclic)
    (relation.meets Constraint.wellKinded_persists meets)
  rw [lowers] at lowersTo
  refine ⟨⟨lowersTo.meets.assignment, lowersTo.meets.pending, lowersTo.meets.simple⟩, rfl, ?_⟩
  intro f stored
  rcases lowersTo.stores_survivors (sameClauses.trans nothingNew)
    (Solver.survives_of_bounded asked) stored with old | settled
  · exact .inl (old.congr sameQualifiers.symm sameCandidates.symm)
  · exact .inr (sameAssignment ▸ settled)

end Inhabit
