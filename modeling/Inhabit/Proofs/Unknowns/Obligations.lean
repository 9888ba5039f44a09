import Inhabit.Proofs.Simplification.Unifiers
import Inhabit.Proofs.Simplification.Soundness
import Inhabit.Proofs.Unknowns.Scopes

/-! No unknown gets lost while constraints are rewritten.

An unknown is accounted for when it has a qualifier space, or when a constraint will
see to it that it gets one. Rewriting brings new unknowns in copies of types, each
together with the constraint that accounts for it. -/

namespace Inhabit

namespace Constraint

structure Tidy (covers : String → Prop) (constraint : Constraint) : Prop where
  scope : constraint.env.Tidy covers
  types : ∀ t ∈ constraint.types, t.Tidy covers
  guard : ∀ env guard, constraint = .wellFormedGuard env guard → guard.Covered covers

/-- The unknowns that will get qualifier spaces from the constraint. -/
def obligations : Constraint → List String
  | .subtype _ _ _ => []
  | .wellFormed env t => env.lastingUnknowns t
  | .wellFormedGuard _ guard => guard.unknownOccurrences

variable {covers wider : String → Prop} {assignment : TypeAssignment}
  {constraint : Constraint} {parts : List Constraint}

theorem Tidy.mono (tidy : constraint.Tidy covers)
    (widens : ∀ unknown, covers unknown → wider unknown) : constraint.Tidy wider where
  scope := tidy.scope.mono widens
  types t member := (tidy.types t member).mono widens
  guard env guard equal := (tidy.guard env guard equal).mono widens

theorem Tidy.of_wellFormed {env : Environment} {t : RefinedType} (scope : env.Tidy covers)
    (type : t.Tidy covers) : Tidy covers (.wellFormed env t) where
  scope := scope
  types := List.forall_mem_singleton.mpr type
  guard := by rintro _ _ ⟨⟩

theorem Tidy.of_subtype {env : Environment} {left right : RefinedType}
    (scope : env.Tidy covers) (first : left.Tidy covers) (second : right.Tidy covers) :
    Tidy covers (.subtype env left right) where
  scope := scope
  types := List.forall_mem_cons.mpr ⟨first, List.forall_mem_singleton.mpr second⟩
  guard := by rintro _ _ ⟨⟩

theorem Tidy.of_guard {env : Environment} {guard : Formula} (scope : env.Tidy covers)
    (covered : guard.Covered covers) : Tidy covers (.wellFormedGuard env guard) where
  scope := scope
  types := List.forall_mem_nil _
  guard := by
    rintro _ _ ⟨⟩
    exact covered

theorem Step.parts_tidy (step : constraint.Step assignment (.decompose parts))
    (assigned : assignment.Tidy covers) (tidy : constraint.Tidy covers) :
    ∀ part ∈ parts, part.Tidy covers := fun part member =>
  ⟨step.parts_scope _ tidy.scope
      (fun name _ _ isSide => tidy.scope.addVariable name
        (RefinedType.tidy_function.mp (tidy.types _ isSide)).1) part member,
    assigned.inherits.parts step tidy.types part member,
    fun env guard equal => absurd equal (step.parts_guard part member env guard)⟩

theorem Step.parts_obligations (step : constraint.Step assignment (.decompose parts))
    {unknown : String} (obliged : unknown ∈ constraint.obligations) :
    ∃ part ∈ parts, unknown ∈ part.obligations := by
  cases step with
  | applySubtype | decomposeScalars | decomposeFunctions => cases obliged
  | applyWellFormed env type assigned =>
      rcases isAssignedVar_iff.mp assigned with ⟨name, free, _⟩
      rcases Environment.freeVar?_eq_some.mp free with ⟨⟨refinement, rfl⟩, _⟩
      rw [obligations, Environment.lastingUnknowns, free] at obliged
      cases obliged
  | decomposeScalar env base head tail refinement =>
      rw [obligations, Environment.lastingUnknowns] at obliged
      rcases List.mem_append.mp obliged with own | inArguments
      · refine ⟨_, List.mem_append_right _ List.mem_cons_self, ?_⟩
        exact List.mem_append_left _ own
      · rw [Environment.lastingUnknownsAll_eq_flatMap] at inArguments
        rcases List.mem_flatMap.mp inArguments with ⟨t, inside, occurs⟩
        exact ⟨.wellFormed env t, List.mem_append_left _ (List.mem_map_of_mem inside), occurs⟩
  | decomposeFunction env x argument result =>
      rcases List.mem_append.mp obliged with inArgument | inResult
      · exact ⟨_, List.mem_cons_self, inArgument⟩
      · refine ⟨_, List.mem_cons_of_mem _ List.mem_cons_self, ?_⟩
        rwa [obligations, Environment.lastingUnknowns_addVariable]

theorem Step.obligations_of_drop (step : constraint.Step assignment .drop) :
    constraint.obligations = [] := by
  cases step
  rfl

end Constraint

def HornClause.Covered (covers : String → Prop) (clause : HornClause) : Prop :=
  clause.antecedent.Covered covers ∧ clause.consequent.Covered covers

/-! ## States -/

namespace SearchState

def inPlay (state : SearchState) (taken : List Constraint) : List Constraint :=
  state.pending ++ (state.simple ++ taken)

theorem mem_inPlay {state : SearchState} {taken : List Constraint} {constraint : Constraint} :
    constraint ∈ state.inPlay taken ↔
      constraint ∈ state.pending ∨ constraint ∈ state.simple ∨ constraint ∈ taken := by
  rw [inPlay, List.mem_append, List.mem_append]

def Covers (state : SearchState) (taken : List Constraint) (unknown : String) : Prop :=
  state.qualifiers.contains unknown = true ∨
    ∃ constraint ∈ state.inPlay taken, unknown ∈ constraint.obligations

structure Accounted (state : SearchState) (taken : List Constraint) : Prop where
  constraints : ∀ constraint ∈ state.inPlay taken, constraint.Tidy (state.Covers taken)
  assignment : state.assignment.Tidy (state.Covers taken)
  clauses : ∀ clause ∈ state.clauses, clause.Covered (state.Covers taken)

structure Conserves (before : SearchState) (taken : List Constraint)
    (after : SearchState) (left : List Constraint) : Prop where
  covers : ∀ unknown, before.Covers taken unknown → after.Covers left unknown
  accounted : before.Accounted taken → after.Accounted left

variable {before middle after : SearchState} {taken held left : List Constraint}

theorem Conserves.trans (early : Conserves before taken middle held)
    (late : Conserves middle held after left) : Conserves before taken after left where
  covers unknown covered := late.covers unknown (early.covers unknown covered)
  accounted holds := late.accounted (early.accounted holds)

theorem Conserves.of_new
    (covers : ∀ unknown, before.Covers taken unknown → after.Covers left unknown)
    (constraints : before.Accounted taken → ∀ constraint ∈ after.inPlay left,
      constraint ∈ before.inPlay taken ∨ constraint.Tidy (after.Covers left))
    (assignment : before.Accounted taken → before.assignment.Tidy (after.Covers left) →
      after.assignment.Tidy (after.Covers left))
    (clauses : before.Accounted taken → ∀ clause ∈ after.clauses,
      clause ∈ before.clauses ∨ clause.Covered (after.Covers left)) :
    Conserves before taken after left where
  covers := covers
  accounted holds := by
    refine ⟨fun constraint member => ?_, ?_, fun clause member => ?_⟩
    · rcases constraints holds constraint member with old | tidy
      · exact (holds.constraints constraint old).mono covers
      · exact tidy
    · exact assignment holds (holds.assignment.mono covers)
    · rcases clauses holds clause member with old | covered
      · exact (holds.clauses clause old).imp (·.mono covers) (·.mono covers)
      · exact covered

theorem Conserves.of_mem_iff (same : ∀ constraint,
      constraint ∈ after.inPlay left ↔ constraint ∈ before.inPlay taken)
    (qualifiers : after.qualifiers = before.qualifiers)
    (assignment : after.assignment = before.assignment)
    (clauses : after.clauses = before.clauses) : Conserves before taken after left := by
  apply Conserves.of_new
  · intro unknown
    unfold Covers
    rw [qualifiers]
    exact Or.imp_right fun ⟨constraint, member, obliged⟩ =>
      ⟨constraint, (same constraint).mpr member, obliged⟩
  · exact fun _ constraint member => .inl ((same constraint).mp member)
  · rw [assignment]
    exact fun _ => id
  · rw [clauses]
    exact fun _ _ => .inl

theorem Conserves.of_perm {state : SearchState}
    (same : ∀ constraint, constraint ∈ left ↔ constraint ∈ taken) :
    Conserves state taken state left := by
  refine .of_mem_iff ?_ rfl rfl rfl
  intro constraint
  rw [mem_inPlay, mem_inPlay, same]

theorem Covers.exchange {state : SearchState} {constraint : Constraint}
    {parts rest : List Constraint}
    (obliged : ∀ unknown ∈ constraint.obligations,
      ∃ part ∈ parts, unknown ∈ part.obligations) {unknown : String}
    (covered : state.Covers (constraint :: rest) unknown) :
    state.Covers (parts ++ rest) unknown := by
  rcases covered with recorded | ⟨other, member, occurs⟩
  · exact .inl recorded
  · by_cases replaced : other = constraint
    · rcases obliged unknown (replaced ▸ occurs) with ⟨part, inside, occurs⟩
      exact .inr ⟨part, by simp [mem_inPlay, inside], occurs⟩
    · refine .inr ⟨other, ?_, occurs⟩
      simp only [mem_inPlay, List.mem_append, List.mem_cons, replaced, false_or] at member ⊢
      tauto

/-- Parts take the place of a constraint that owes no more than they do. -/
theorem Conserves.exchange {state : SearchState} {constraint : Constraint}
    {parts rest : List Constraint}
    (obliged : ∀ unknown ∈ constraint.obligations,
      ∃ part ∈ parts, unknown ∈ part.obligations)
    (tidy : ∀ covers, state.assignment.Tidy covers → constraint.Tidy covers →
      ∀ part ∈ parts, part.Tidy covers) :
    Conserves state (constraint :: rest) state (parts ++ rest) := by
  apply Conserves.of_new
  · exact fun unknown => Covers.exchange obliged
  · intro holds other member
    by_cases inside : other ∈ parts
    · have whole := holds.constraints constraint (by simp [mem_inPlay])
      have widens : ∀ unknown, state.Covers (constraint :: rest) unknown →
          state.Covers (parts ++ rest) unknown := fun _ => Covers.exchange obliged
      exact .inr (tidy _ (holds.assignment.mono widens) (whole.mono widens) other inside)
    · left
      simp only [mem_inPlay, List.mem_append, List.mem_cons, inside, false_or] at member ⊢
      tauto
  · exact fun _ => id
  · exact fun _ _ => .inl

theorem Conserves.drop {state : SearchState} {constraint : Constraint}
    {rest : List Constraint} (owes : constraint.obligations = []) :
    Conserves state (constraint :: rest) state rest := by
  have none : ∀ unknown ∈ constraint.obligations,
      ∃ part ∈ ([] : List Constraint), unknown ∈ part.obligations := by
    rw [owes]
    exact List.forall_mem_nil _
  exact .exchange none fun _ _ _ => List.forall_mem_nil _

end SearchState

/-! ## Rewriting -/

open SearchState

theorem Workspace.conserves_bind {workspace : Workspace} {constraint : Constraint}
    {name : String} {type : RefinedType} (inside : type ∈ constraint.types)
    (rest : List Constraint) :
    Conserves workspace.state (constraint :: rest)
      (workspace.bind constraint.env name type).state (constraint :: rest) := by
  let copy := workspace.copyOf constraint.env type
  let after := (workspace.bind constraint.env name type).state
  have more : ∀ other, other ∈ after.inPlay (constraint :: rest) ↔
      other = .wellFormed constraint.env copy ∨
        other ∈ workspace.state.inPlay (constraint :: rest) := by
    intro other
    simp only [after, copy, mem_inPlay, Workspace.bind, List.mem_append,
      List.mem_singleton]
    tauto
  have widens : ∀ unknown, workspace.state.Covers (constraint :: rest) unknown →
      after.Covers (constraint :: rest) unknown := by
    intro unknown
    apply Or.imp_right
    rintro ⟨other, member, obliged⟩
    exact ⟨other, (more other).mpr (.inr member), obliged⟩
  have tidyCopy : workspace.state.Accounted (constraint :: rest) →
      copy.Tidy (after.Covers (constraint :: rest)) := by
    intro holds
    have whole := holds.constraints constraint (by simp [mem_inPlay])
    apply (constraint.env.tidy_freshCopy (whole.types type inside) workspace.names).mono
    exact fun unknown owed => .inr ⟨_, (more _).mpr (.inl rfl), owed⟩
  apply Conserves.of_new widens
  · intro holds other member
    rcases (more other).mp member with rfl | old
    · have whole := holds.constraints constraint (by simp [mem_inPlay])
      exact .inr (.of_wellFormed (whole.scope.mono widens) (tidyCopy holds))
    · exact .inl old
  · exact fun holds assigned => assigned.insert name (tidyCopy holds)
  · exact fun _ _ => .inl

theorem Rewrites.conserves {before after : Workspace} {constraints : List Constraint}
    {result : Except Failure (List Constraint)}
    (rewrites : Rewrites before constraints result after) (others : List Constraint)
    {deferred : List Constraint} (ended : result = .ok deferred) :
    Conserves before.state (constraints ++ others) after.state (deferred ++ others) := by
  induction rewrites generalizing others deferred with
  | done workspace =>
      cases ended
      exact .of_mem_iff (fun _ => .rfl) rfl rfl rfl
  | @decompose before after constraint parts rest result rewriting continues induction =>
      have step := Constraint.step_of_rewriting rewriting
      have exchanged : Conserves before.state (constraint :: (rest ++ others))
          before.state (parts ++ (rest ++ others)) :=
        .exchange (fun _ => step.parts_obligations) fun _ => step.parts_tidy
      rw [← List.append_assoc] at exchanged
      exact exchanged.trans (induction others ended)
  | @bind before after constraint rest result name type rewriting absent continues induction =>
      have step := Constraint.step_of_rewriting rewriting
      exact (Workspace.conserves_bind step.binds.member _).trans (induction others ended)
  | @keep before after constraint rest result rewriting continues induction =>
      have kept : Conserves before.state (constraint :: (rest ++ others))
          (before.addSimple [constraint]).state (rest ++ others) := by
        refine .of_mem_iff ?_ rfl rfl rfl
        intro other
        simp [mem_inPlay, Workspace.addSimple, SearchState.addSimple, or_assoc]
      exact kept.trans (induction others ended)
  | @defer before after constraint rest result rewriting continues induction =>
      cases result with
      | error failure => cases ended
      | ok inner =>
          cases ended
          -- A deferred constraint is kept aside until the rest of the run is over.
          have aside := induction (constraint :: others) rfl
          have moved : Conserves before.state (constraint :: (rest ++ others))
              before.state (rest ++ constraint :: others) :=
            .of_perm fun _ => List.perm_middle.mem_iff
          have back : Conserves after.state (inner ++ constraint :: others)
              after.state (constraint :: (inner ++ others)) :=
            .of_perm fun _ => List.perm_middle.symm.mem_iff
          exact (moved.trans aside).trans back
  | @drop before after constraint rest result rewriting continues induction =>
      have step := Constraint.step_of_rewriting rewriting
      exact (Conserves.drop step.obligations_of_drop).trans (induction others ended)
  | mismatch | occurs => cases ended

theorem Rewrites.pending_of_size_eq {before after : Workspace}
    {constraints : List Constraint} {result : Except Failure (List Constraint)}
    (rewrites : Rewrites before constraints result after)
    (same : after.state.assignment.size = before.state.assignment.size) :
    after.state.pending = before.state.pending := by
  induction rewrites with
  | done | mismatch | occurs => rfl
  | decompose _ _ induction | keep _ _ induction | drop _ _ induction
  | defer _ _ induction => exact induction same
  | @bind before after constraint rest result name type rewriting _ continues _ =>
      have step := Constraint.step_of_rewriting rewriting
      have grown := TypeAssignment.size_insert step.binds.isOpen
        (before.copyOf constraint.env type)
      have further : (before.bind constraint.env name type).state.assignment.size ≤
          after.state.assignment.size := continues.size_le
      exact absurd same (Nat.ne_of_gt (Nat.lt_of_lt_of_le
        (grown ▸ Nat.lt_succ_self _) further))

namespace Simplifies

variable {before after : Workspace} {passes : Nat} {result : Except Failure Unit}

theorem conserves (simplifies : Simplifies before passes result after)
    (ended : result = .ok ()) : Conserves before.state [] after.state [] := by
  have taken (workspace : Workspace) : Conserves workspace.state []
      workspace.clearPending.state (workspace.state.pending ++ []) := by
    refine .of_mem_iff ?_ rfl rfl rfl
    intro other
    simp [mem_inPlay, Workspace.clearPending, or_comm]
  induction simplifies with
  | fail => cases ended
  | @last before after deferred rewrites same =>
      apply ((taken before).trans (rewrites.conserves [] rfl)).trans
      refine .of_mem_iff ?_ rfl rfl rfl
      intro other
      simp [mem_inPlay, Workspace.addSimple, SearchState.addSimple]
  | @next before middle after deferred passes result rewrites grown _ induction =>
      have put : Conserves middle.state (deferred ++ [])
          (middle.addPending deferred).state [] := by
        refine .of_mem_iff ?_ rfl rfl rfl
        intro other
        simp only [mem_inPlay, Workspace.addPending, SearchState.addPending,
          List.mem_append, List.not_mem_nil, or_false]
        tauto
      exact (((taken before).trans (rewrites.conserves [] rfl)).trans put).trans
        (induction ended)

theorem pending_eq_nil (simplifies : Simplifies before passes result after)
    (ended : result = .ok ()) : after.state.pending = [] := by
  induction simplifies with
  | fail => cases ended
  | last rewrites same => exact rewrites.pending_of_size_eq same
  | next _ _ _ induction => exact induction ended

end Simplifies

end Inhabit
