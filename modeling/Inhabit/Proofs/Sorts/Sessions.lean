import Inhabit.Proofs.Sorts.Storing

/-! How what has been stored dates in a session of adding constraints and solving.

A solve step stores formulas at sorts that are settled then, and later steps leave them as
they are. So a sort of theirs is unsettled only if it has been assigned since. -/

namespace Inhabit

/-! ## Sessions -/

def Memory.addPending (memory : Memory σ) (constraints : List Constraint) : Memory σ :=
  { memory with state := memory.state.addPending constraints }

/-- Where adding constraints of a kind and solving leads to, with the states on the way
there, the last one first. Assignments never have cycles. -/
inductive Session (setting : Setting σ) (kind : Constraint → Prop) :
    (past : List SearchState) → Memory σ → Prop where
  | start (names : NameSupply) (solver : σ) :
      Session setting kind [] { setting.start solver with names }
  | add {past : List SearchState} {memory : Memory σ}
      (session : Session setting kind past memory) {constraints : List Constraint}
      (areOfKind : ∀ constraint ∈ constraints, kind constraint) :
      Session setting kind (memory.state :: past) (memory.addPending constraints)
  | solve {past : List SearchState} {memory after : Memory σ}
      (session : Session setting kind past memory) (program : Program)
      (ran : Search.solve program setting memory = (.ok (), after))
      (acyclic : after.state.assignment.Acyclic) :
      Session setting kind (memory.state :: past) after

namespace SearchState

/-- The sort has been assigned since a formula that uses it was stored. -/
def Outdated (past : List SearchState) (state : SearchState) (sort : LogicSort) : Prop :=
  ¬ state.assignment.Settled sort ∧ ∃ f, state.Stores f ∧ f.Uses sort ∧
    ∃ earlier ∈ past, earlier.Stores f ∧ earlier.assignment.Settled sort

def SettledOrOutdated (past : List SearchState) (state : SearchState) (sort : LogicSort) :
    Prop :=
  state.assignment.Settled sort ∨ state.Outdated past sort

structure Dated (past : List SearchState) (state : SearchState) : Prop where
  acyclic : state.assignment.Acyclic
  meets : state.Meets TypeAssignment.WellKinded Constraint.WellKinded
  nothingNew : state.clauses = []
  stored : ∀ f, state.Stores f → ∃ earlier ∈ state :: past,
    earlier.Stores f ∧ f.OfSorts earlier.assignment.Settled

variable {past : List SearchState} {state : SearchState}

theorem Dated.ofSorts (dated : state.Dated past) {f : Formula} (stored : state.Stores f) :
    f.OfSorts (state.SettledOrOutdated past) := by
  refine Formula.ofSorts_iff.mpr fun sort uses => ?_
  by_cases settled : state.assignment.Settled sort
  · exact .inl settled
  · rcases dated.stored f stored with ⟨earlier, member, wasStored, wasSettled⟩
    have thenSettled := Formula.ofSorts_iff.mp wasSettled sort uses
    rcases List.mem_cons.mp member with rfl | inPast
    · exact absurd thenSettled settled
    · exact .inr ⟨settled, f, stored, uses, earlier, inPast, wasStored, thenSettled⟩

theorem Dated.coherent (dated : state.Dated past) {candidate : Candidate}
    (inside : candidate ∈ state.candidates) {clause : HornClause}
    (valid : clause ∈ candidate.validClauses) :
    (clause.applySolution candidate.solution).toFormula.Coherent state.assignment
      (state.Outdated past) := by
  have chosen (unknown : String) (qualifier : Formula)
      (member : qualifier ∈ candidate.solution.chosen unknown) :=
    dated.ofSorts (.chosen inside member)
  apply Formula.coherent_of_ofSorts
  exact ((dated.ofSorts (.antecedent inside valid)).applySolution chosen).implies
    ((dated.ofSorts (.consequent inside valid)).applySolution chosen)

theorem Dated.all_finalize (dated : state.Dated past) (program : Program) :
    (state.finalize program).All
      (fun type => type.OfSorts (state.SettledOrOutdated past) ∧
        ∀ name ∈ type.toTerm.vars, state.assignment.find? name = none)
      (Formula.OfSorts (state.SettledOrOutdated past)) := by
  have chosen (unknown : String) (qualifier : Formula)
      (member : qualifier ∈ state.solution.chosen unknown) :
      qualifier.OfSorts (state.SettledOrOutdated past) := by
    rcases SearchState.chosen_solution member with ⟨candidate, inside, member⟩
    exact dated.ofSorts (.chosen inside member)
  apply Program.all_mapAnnotations.mpr
  apply Program.all_of_forall
  · intro type
    have applied := dated.acyclic.ofSorts_apply dated.meets.assignment type
    refine ⟨(applied.mono fun _ => .inl).applySolution chosen, ?_⟩
    rw [RefinedType.toTerm_applySolution]
    exact fun _ => dated.acyclic.find?_of_mem_apply
  · intro guard
    have applied := dated.acyclic.ofSorts_applyFormula dated.meets.assignment guard
    exact (applied.mono fun _ => .inl).applySolution chosen

theorem not_stores_start {bound : Int64} {f : Formula} :
    ¬ (SearchState.start (Solver.bounded bound).initial).Stores f := by
  intro stored
  cases stored with
  | recorded found member => cases found
  | chosen inside member =>
      rw [List.mem_singleton.mp inside] at member
      exact (Solver.choosesProposed_bounded bound).initial _ _ member
  | antecedent inside valid | consequent inside valid =>
      rw [List.mem_singleton.mp inside] at valid
      exact SortedSet.not_mem_empty _ valid

end SearchState

theorem TypeAssignment.acyclic_empty : Acyclic ∅ :=
  acyclic_of_rank (fun _ => 0) fun _ _ ⟨_, found, _⟩ => nomatch found

theorem Session.dated {setting : Setting BoundedTally} {bound : Int64}
    (bounded : setting.solver = .bounded bound) (isLocal : setting.sources.SortLocal)
    {past : List SearchState} {memory : Memory BoundedTally}
    (session : Session setting Constraint.WellKinded past memory) :
    memory.state.Dated past := by
  induction session with
  | start names solver =>
      refine ⟨TypeAssignment.acyclic_empty,
        ⟨TypeAssignment.wellKinded_empty, List.forall_mem_nil _, List.forall_mem_nil _⟩,
        rfl, ?_⟩
      intro f stored
      rw [Setting.start, bounded] at stored
      exact absurd stored SearchState.not_stores_start
  | add session kinded dated =>
      refine ⟨dated.acyclic, ⟨dated.meets.assignment, ?_, dated.meets.simple⟩,
        dated.nothingNew, ?_⟩
      · exact List.forall_mem_append.mpr ⟨dated.meets.pending, kinded⟩
      · intro f stored
        rcases dated.stored f (stored.congr rfl rfl) with ⟨earlier, member, holds⟩
        exact ⟨earlier, List.mem_cons_of_mem _ member, holds⟩
  | solve session program ran acyclic dated =>
      rcases Search.stores_solve bounded isLocal ran acyclic dated.meets dated.nothingNew with
        ⟨meets, nothingNew, stores⟩
      refine ⟨acyclic, meets, nothingNew, ?_⟩
      intro f stored
      rcases stores f stored with old | settled
      · rcases dated.stored f old with ⟨earlier, member, holds⟩
        exact ⟨earlier, List.mem_cons_of_mem _ member, holds⟩
      · exact ⟨_, List.mem_cons_self, stored, settled⟩

/-- In a session, stored formulas were at settled sorts when they were stored. So clauses
under the solution of a candidate have one atom where the assignment has one, and finished
programs are at settled sorts, as far as no sort has been assigned since a formula that
uses it was stored. -/
theorem Session.stored_at_settled_sorts {setting : Setting BoundedTally} {bound : Int64}
    (bounded : setting.solver = .bounded bound) (isLocal : setting.sources.SortLocal)
    {past : List SearchState} {memory : Memory BoundedTally}
    (session : Session setting Constraint.WellKinded past memory) :
    (∀ f, memory.state.Stores f → ∃ earlier ∈ memory.state :: past,
      earlier.Stores f ∧ f.OfSorts earlier.assignment.Settled) ∧
    (∀ candidate ∈ memory.state.candidates, ∀ clause ∈ candidate.validClauses,
      (clause.applySolution candidate.solution).toFormula.Coherent memory.state.assignment
        (memory.state.Outdated past)) ∧
    ∀ program : Program, (memory.state.finalize program).All
      (fun type => type.OfSorts (memory.state.SettledOrOutdated past) ∧
        ∀ name ∈ type.toTerm.vars, memory.state.assignment.find? name = none)
      (Formula.OfSorts (memory.state.SettledOrOutdated past)) := by
  have dated := session.dated bounded isLocal
  refine ⟨dated.stored, ?_, dated.all_finalize⟩
  exact fun candidate inside clause valid => dated.coherent inside valid

section Late

theorem TypeAssignment.acyclic_of_closed {assignment : TypeAssignment}
    (closed : ∀ entry ∈ assignment.entries, entry.2.toTerm.vars = []) :
    assignment.Acyclic := by
  apply acyclic_of_rank fun _ => 0
  rintro name other ⟨t, found, occurs⟩
  rw [closed _ (SortedMap.mem_entries_of_find? found)] at occurs
  cases occurs

theorem Environment.wellKinded_empty : (∅ : Environment).WellKinded :=
  ⟨fun _ _ => nofun, fun _ _ => nofun⟩

theorem nonNegative_sortLocal : nonNegative.SortLocal where
  guards _ _ member := nomatch member
  refinements scalars qualifier member typeVar uses := by
    rcases List.mem_map.mp member with ⟨term, isTerm, rfl⟩
    refine ⟨term, isTerm, ?_⟩
    simpa [Formula.Uses, Formula.atLeast, Formula.sortedOccurrences] using uses

def lateSetting : Setting BoundedTally where
  parameters := {}
  solver := .bounded 1
  sources := nonNegative
  steps := 20

def openScope : Environment :=
  (∅ : Environment).addVariable "x"
    (.atom (.typeVar "a") ((Formula.value (.var "a")).atLeast (.int 0)))

def inferred (unknown : String) : RefinedType := .atom .int (.unknown [] unknown)

def inferring : Memory BoundedTally :=
  (lateSetting.start {}).addPending [.wellFormed openScope (inferred "u"),
    .subtype openScope (.atom .int .top) (inferred "u")]

def earlyMemory : Memory BoundedTally := (Search.solve default lateSetting inferring).2

def deciding (constraints : List Constraint) : Memory BoundedTally :=
  earlyMemory.addPending
    (.subtype ∅ (.atom (.typeVar "a") .top) (.atom .int .top) :: constraints)

def lateMemory (constraints : List Constraint) : Memory BoundedTally :=
  (Search.solve default lateSetting (deciding constraints)).2

def openComparison : Formula := (Formula.var (.var "a") "x").atLeast (.int 0)

private theorem session_late {kind : Constraint → Prop} {constraints : List Constraint}
    (early : ∀ constraint ∈ inferring.state.pending, kind constraint)
    (late : ∀ constraint ∈ .subtype ∅ (.atom (.typeVar "a") .top) (.atom .int .top) ::
      constraints, kind constraint)
    (succeeds :
      (Search.solve default lateSetting (deciding constraints)).1.toOption = some ())
    (closed : ∀ entry ∈ (lateMemory constraints).state.assignment.entries,
      entry.2.toTerm.vars = []) :
    Session lateSetting kind [(deciding constraints).state, earlyMemory.state,
      inferring.state, (lateSetting.start {}).state] (lateMemory constraints) := by
  have started : Session lateSetting kind [] (lateSetting.start {}) :=
    .start ({} : NameSupply) ({} : BoundedTally)
  have inferringReached : Session lateSetting kind [(lateSetting.start {}).state]
      inferring := started.add early
  have earlyReached : Session lateSetting kind
      [inferring.state, (lateSetting.start {}).state] earlyMemory := by
    have succeeds : (Search.solve default lateSetting inferring).1.toOption = some () := by
      decide +kernel
    apply inferringReached.solve default (Prod.ext (Except.eq_ok_of_toOption succeeds) rfl)
    exact TypeAssignment.acyclic_of_closed (by decide +kernel)
  have decidingReached : Session lateSetting kind [earlyMemory.state, inferring.state,
      (lateSetting.start {}).state] (deciding constraints) := earlyReached.add late
  exact decidingReached.solve default (Prod.ext (Except.eq_ok_of_toOption succeeds) rfl)
    (TypeAssignment.acyclic_of_closed closed)

private theorem wellKinded_inferring :
    ∀ constraint ∈ inferring.state.pending, constraint.WellKinded := by
  have int (refinement : Formula) :
      (Skeleton.atom BaseType.int refinement).toTerm.WellKinded :=
    .node nofun (List.forall_mem_nil _)
  have scope : openScope.WellKinded := Environment.wellKinded_empty.addVariable "x" (.var "a")
  intro constraint member
  rcases List.mem_pair.mp member with rfl | rfl
  · exact ⟨scope, List.forall_mem_singleton.mpr (int _)⟩
  · exact ⟨scope, List.forall_mem_cons.mpr ⟨int _, List.forall_mem_singleton.mpr (int _)⟩⟩

private theorem wellKinded_deciding : (Constraint.subtype ∅ (.atom (.typeVar "a") .top)
    (.atom .int .top)).WellKinded where
  scope := Environment.wellKinded_empty
  types := List.forall_mem_cons.mpr ⟨.var "a",
    List.forall_mem_singleton.mpr (.node nofun (List.forall_mem_nil _))⟩

private theorem recorded_openComparison : ∃ space ∈
    (lateMemory []).state.qualifiers.find? "u", openComparison ∈ space.qualifiers := by
  decide +kernel

/-- The comparison is of an open type when it is stored, and of an assigned one later. -/
theorem openComparison_settled :
    ∃ past, Session lateSetting Constraint.WellKinded past (lateMemory []) ∧
      (lateMemory []).state.Stores openComparison ∧
      ¬ (lateMemory []).state.assignment.Settled (.var "a") ∧
      ∃ earlier ∈ past, earlier.Stores openComparison ∧
        earlier.assignment.Settled (.var "a") := by
  have session := session_late wellKinded_inferring
    (List.forall_mem_singleton.mpr wellKinded_deciding) (by decide +kernel)
    (by decide +kernel)
  have unsettled : ¬ (lateMemory []).state.assignment.Settled (.var "a") := by
    decide +kernel
  rcases recorded_openComparison with ⟨space, found, member⟩
  have stored : (lateMemory []).state.Stores openComparison := .recorded found member
  refine ⟨_, session, stored, unsettled, ?_⟩
  rcases (Session.stored_at_settled_sorts rfl nonNegative_sortLocal session).1 _ stored with
    ⟨earlier, reached, wasStored, wasSettled⟩
  have thenSettled := Formula.ofSorts_iff.mp wasSettled (.var "a") (by decide)
  rcases List.mem_cons.mp reached with rfl | inPast
  · exact absurd thenSettled unsettled
  · exact ⟨earlier, inPast, wasStored, thenSettled⟩

def carryingScope : Environment :=
  (∅ : Environment).addVariable "y" (.scalar (.typeVar "a") [.atom .int .top] .top)

def sharedScope : Environment :=
  ((∅ : Environment).addVariable "z"
    (.atom .int ((Formula.value .int).atLeast (.int 0)))).addGhost "z"
      (.atom .bool (.value .bool))

def lateConstraints : List Constraint :=
  [.subtype openScope (inferred "u") (.atom .int ((Formula.var .int "x").atLeast (.int 0))),
    .wellFormed carryingScope (inferred "w"),
    .subtype sharedScope (.atom .int .top) (.atom .int (.var .bool "z"))]

def SearchState.OffersAt (state : SearchState) (unknown : String) (sort : LogicSort) : Prop :=
  ∃ space ∈ state.qualifiers.find? unknown,
    ∃ qualifier ∈ space.qualifiers, qualifier.Uses sort

/-- A clause under the solution has atoms of one name and two sorts. -/
def Candidate.Splits (candidate : Candidate) (name : String) (first second : LogicSort) :
    Prop :=
  ∃ clause ∈ candidate.validClauses.toList,
    let atoms := (clause.applySolution candidate.solution).toFormula.atoms
    .var first name ∈ atoms ∧ .var second name ∈ atoms

/-- The comparison stays at the sort that has been assigned: as a recorded qualifier, in the
solution, in a clause beside the same name at the assigned sort, and in a finished type.
Something new is recorded at that sort even now, for a type that carries arguments, and one
name in scope twice is at two sorts. -/
theorem stored_formulas_outlast_assignments :
    lateSetting.solver = .bounded 1 ∧ lateSetting.sources.SortLocal ∧
      ∃ past, Session lateSetting (fun _ => True) past (lateMemory lateConstraints) ∧
        let state := (lateMemory lateConstraints).state
        ¬ state.assignment.Settled (.var "a") ∧
        state.OffersAt "u" (.var "a") ∧
        (∃ candidate ∈ state.candidates,
          openComparison ∈ candidate.solution.chosen "u" ∧
          (∃ clause ∈ candidate.validClauses.toList, clause.antecedent = openComparison) ∧
          candidate.Splits "x" (.var "a") .int ∧ candidate.Splits "z" .bool .int) ∧
        state.finalize (.symbol "p" (inferred "u")) =
          .symbol "p" (.atom .int openComparison) ∧
        state.OffersAt "w" (.var "a") ∧
        ∀ earlier ∈ past, earlier.qualifiers.find? "w" = none := by
  have session : Session lateSetting (fun _ => True) _ (lateMemory lateConstraints) :=
    session_late (fun _ _ => trivial) (fun _ _ => trivial) (by decide +kernel)
      (by decide +kernel)
  refine ⟨rfl, nonNegative_sortLocal, _, session, ?_, ?_, ?_, ?_, ?_, ?_⟩
  · decide +kernel
  · unfold SearchState.OffersAt
    decide +kernel
  · unfold Candidate.Splits
    decide +kernel
  · apply congrArg (Program.symbol "p")
    decide +kernel
  · unfold SearchState.OffersAt
    decide +kernel
  · decide +kernel

end Late

end Inhabit
