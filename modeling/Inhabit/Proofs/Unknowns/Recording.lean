import Inhabit.Proofs.Search.Solving
import Inhabit.Proofs.Search.Traversal
import Inhabit.Proofs.Unknowns.Obligations
import Inhabit.Proofs.Unknowns.Programs
import Inhabit.Solving.Scripted

/-! Every unknown that a branch of a search mentions is accounted for, and has a
qualifier space when the candidates are refined. -/

namespace Inhabit

namespace SearchState

variable {before after : SearchState} {constraint : Constraint} {rest : List Constraint}

/-! ## Lowering -/

theorem covered_subtypeClause {covers : String → Prop} {env : Environment}
    {assignment : TypeAssignment} {left right : Formula} (scope : env.Tidy covers)
    (assigned : assignment.Tidy covers) (first : left.Covered covers)
    (second : right.Covered covers) :
    (Search.subtypeClause env assignment left right).Covered covers :=
  ⟨(Formula.covered_conjunction (scope.positives assigned)).and first,
    (Formula.covered_disjunction scope.negatives).or second⟩

theorem Conserves.of_records {unknowns : List String}
    (obliged : ∀ unknown ∈ constraint.obligations, unknown ∈ unknowns)
    (recorded : before.Records unknowns after) :
    Conserves before (constraint :: rest) after rest := by
  have same : after.inPlay rest = before.inPlay rest := by
    rw [recorded.only]
    rfl
  apply Conserves.of_new
  · rintro unknown (old | ⟨other, member, owed⟩)
    · exact .inl (Search.contains_of_keeps recorded.keeps old)
    · by_cases lowered : other = constraint
      · exact .inl (recorded.records unknown (obliged unknown (lowered ▸ owed)))
      · refine .inr ⟨other, ?_, owed⟩
        rw [same]
        simp only [mem_inPlay, List.mem_cons, lowered, false_or] at member ⊢
        exact member
  · intro _ other member
    rw [same] at member
    left
    rw [mem_inPlay] at member ⊢
    exact member.imp_right (Or.imp_right (List.mem_cons_of_mem _))
  · rw [recorded.only]
    exact fun _ => id
  · rw [recorded.only]
    exact fun _ _ => .inl

theorem Conserves.of_clause {state : SearchState} (owes : constraint.obligations = [])
    {clause : HornClause}
    (covered : ∀ covers, state.assignment.Tidy covers → constraint.Tidy covers →
      clause.Covered covers) :
    Conserves state (constraint :: rest) (state.addClause clause) rest := by
  have dropped : Conserves state (constraint :: rest) state rest := .drop owes
  have widens : ∀ unknown, state.Covers (constraint :: rest) unknown →
      (state.addClause clause).Covers rest unknown := dropped.covers
  apply Conserves.of_new widens
  · exact fun _ other member => .inl (by
      rw [mem_inPlay] at member ⊢
      exact member.imp_right (Or.imp_right (List.mem_cons_of_mem _)))
  · exact fun _ => id
  · intro holds other member
    rcases List.mem_append.mp member with old | new
    · exact .inl old
    · have whole := holds.constraints constraint (by simp [mem_inPlay])
      rw [List.mem_singleton.mp new]
      exact .inr (covered _ (holds.assignment.mono widens) (whole.mono widens))

end SearchState

section Lowering

variable {before after : SearchState} {constraint : Constraint} {rest : List Constraint}

open SearchState

theorem Lowered.conserves (lowered : Lowered before constraint after) :
    Conserves before (constraint :: rest) after rest := by
  cases lowered with
  | again =>
      refine .of_mem_iff ?_ rfl rfl rfl
      intro other
      simp only [mem_inPlay, SearchState.addPending, List.mem_append, List.mem_cons]
      tauto
  | nothing env base left right =>
      exact .drop rfl
  | clause env base left right =>
      apply Conserves.of_clause rfl
      intro covers assigned tidy
      have first := tidy.types _ List.mem_cons_self
      have second := tidy.types _ (List.mem_cons_of_mem _ List.mem_cons_self)
      apply covered_subtypeClause tidy.scope assigned
      · exact (RefinedType.tidy_atom.mp first).instantiateSorts _
      · exact (RefinedType.tidy_atom.mp second).instantiateSorts _
  | refinement env base refinement recorded =>
      apply Conserves.of_records _ recorded
      intro unknown owed
      rw [Constraint.obligations, Environment.lastingUnknowns] at owed
      rcases List.mem_append.mp owed with own | inArguments
      · split at own
        · cases own
        · exact own
      · cases inArguments
  | guard env pending unknown recorded =>
      exact Conserves.of_records (fun _ => id) recorded

theorem Lowered.obligations_of_pending (lowered : Lowered before constraint after)
    (owing : ∀ other ∈ before.pending, other.obligations = []) :
    ∀ other ∈ after.pending, other.obligations = [] := by
  cases lowered with
  | again isFree => exact List.forall_mem_append.mpr ⟨owing, List.forall_mem_singleton.mpr rfl⟩
  | nothing | clause => exact owing
  | refinement env base refinement recorded =>
      rw [recorded.only]
      exact owing
  | guard env pending unknown recorded =>
      rw [recorded.only]
      exact owing

end Lowering

/-! ## Solving -/

structure SearchState.Ready (state : SearchState) : Prop where
  accounted : state.Accounted []
  recorded : ∀ unknown, state.Covers [] unknown → state.qualifiers.contains unknown = true

namespace Search

variable {σ : Type} {setting : Setting σ} {promise : Promise σ} {memory : Memory σ}

/-- Whatever a search does stands by the promise, if the candidates are refined only
where every unknown has a space. -/
structure Promise.Tracks (setting : Setting σ) (promise : Promise σ) : Prop
    extends promise.Steady setting where
  missing (constructorName : String) : promise.AllowsMissing constructorName
  nonSimple (memory : Memory σ) (constraint : Constraint) (calm : promise.calm memory) :
    promise.stopped (.failed (.nonSimpleConstraint constraint)) memory
  refined (memory : Memory σ) (program : Program) (ready : memory.state.Ready)
    (calm : promise.calm memory) :
    let asked : Memory σ :=
      { memory with state := { memory.state with clauses := [], candidates := [] } }
    Yields setting promise (ask (·.refine memory.state.clauses memory.state.qualifiers
      program memory.state.candidates)) asked fun candidates after =>
        after.state = asked.state ∧
          promise.calm { after with state := { after.state with candidates } }

theorem yields_solve (tracks : promise.Tracks setting) (program : Program)
    (accounted : memory.state.Accounted []) :
    Yields setting promise (solve program) memory fun _ after => after.state.Ready ∧
      ∀ unknown, memory.state.Covers [] unknown → after.state.Covers [] unknown := by
  apply (yields_simplifyAll tracks.toSteady).bind
  rintro _ simplified ⟨_, passes, simplifies⟩
  have rewritten := simplifies.conserves rfl
  have nothingPending := simplifies.pending_eq_nil rfl
  dsimp only at rewritten nothingPending
  let invariant (left : List Constraint) (state : SearchState) : Prop :=
    memory.state.Conserves [] state left ∧ state.simple = [] ∧
      ∀ constraint ∈ state.pending, constraint.obligations = []
  have start : invariant simplified.state.simple { simplified.state with simple := [] } := by
    refine ⟨rewritten.trans (.of_mem_iff ?_ rfl rfl rfl), rfl, ?_⟩
    · intro other
      simp [SearchState.mem_inPlay]
    · rw [nothingPending]
      exact List.forall_mem_nil _
  have lowered : Yields setting promise lowerAll simplified fun _ after =>
      invariant [] after.state := by
    refine yields_lowerAll tracks.toSteady ?_ ?_ start
    · intro constraint rest before after holds lowered
      exact ⟨holds.1.trans (lowered.conserves),
        (lowered.simple_eq).trans holds.2.1,
        lowered.obligations_of_pending holds.2.2⟩
    · exact fun constraint _ other _ => .inr (tracks.nonSimple other constraint)
  apply lowered.bind
  rintro _ middle ⟨conserves, nothingSimple, nothingOwed⟩
  -- Only comparisons of free variables are left, and no unknown waits for those.
  have ready : middle.state.Ready := by
    refine ⟨conserves.accounted accounted, ?_⟩
    rintro unknown (recorded | ⟨constraint, member, owed⟩)
    · exact recorded
    · rw [SearchState.mem_inPlay, nothingSimple] at member
      rcases member with waiting | impossible
      · rw [nothingOwed constraint waiting] at owed
        cases owed
      · simp at impossible
  apply (yields_refineCandidates tracks.toSteady program
    (tracks.refined middle program ready)).mono
  rintro _ after ⟨candidates, equal⟩
  have kept : middle.state.Conserves [] after.state [] := by
    rw [equal]
    exact .of_new (fun _ => id) (fun _ _ => .inl) (fun _ => id) fun _ => List.forall_mem_nil _
  refine ⟨⟨kept.accounted ready.accounted, ?_⟩,
    fun unknown covered => kept.covers unknown (conserves.covers unknown covered)⟩
  rw [equal]
  exact ready.recorded

theorem conserves_addPending {state : SearchState} {constraint : Constraint}
    (tidy : state.Accounted [] →
      constraint.Tidy ((state.addPending [constraint]).Covers [])) :
    state.Conserves [] (state.addPending [constraint]) [] := by
  have more : ∀ other, other ∈ (state.addPending [constraint]).inPlay [] ↔
      other = constraint ∨ other ∈ state.inPlay [] := by
    intro other
    simp only [SearchState.mem_inPlay, SearchState.addPending, List.mem_append,
      List.mem_singleton]
    tauto
  apply SearchState.Conserves.of_new
  · intro unknown
    apply Or.imp_right
    rintro ⟨other, member, owed⟩
    exact ⟨other, (more other).mpr (.inr member), owed⟩
  · intro holds other member
    rcases (more other).mp member with rfl | old
    · exact .inr (tidy holds)
    · exact .inl old
  · exact fun _ => id
  · exact fun _ _ => .inl

theorem covers_addPending {state : SearchState} {constraint : Constraint} {unknown : String}
    (covered : state.Covers [] unknown) :
    (state.addPending [constraint]).Covers [] unknown := by
  apply covered.imp_right
  rintro ⟨other, member, owed⟩
  refine ⟨other, ?_, owed⟩
  simp only [SearchState.mem_inPlay, SearchState.addPending, List.mem_append] at member ⊢
  tauto

/-! ## Whole searches -/

/-- What a search carries mentions only unknowns that are accounted for. -/
def accounting : Assertions where
  state state := state.Accounted []
  grows before after := ∀ unknown, before.Covers [] unknown → after.Covers [] unknown
  later before after := ∀ unknown, before.Covers [] unknown → after.Covers [] unknown
  scope state env := env.Tidy (state.Covers [])
  type state t := t.Tidy (state.Covers [])
  goal state t := t.Tidy (state.Covers [])
  fits _ _ _ := True
  scrutinee _ _ _ := True
  body state program := program.All (RefinedType.Tidy (state.Covers []))
    (Formula.Covered (state.Covers []))

theorem lasting_accounting : accounting.Lasting where
  refl _ _ := id
  trans early late unknown covered := late unknown (early unknown covered)
  laterOfGrows := id
  laterTrans early late unknown covered := late unknown (early unknown covered)
  scope later holds := holds.mono later
  type later holds := holds.mono later
  goal later holds := holds.mono later
  body later holds := holds.mono (fun _ tidy => tidy.mono later)
    fun _ covered => covered.mono later
  fits _ := id

theorem typed_accounting : accounting.Typed where
  symbol names scope listed :=
    tidy_symbolType _ _ (Schema.tidy_instantiate (scope.symbols _ _ listed) names)
  goal := id
  bottom holds := holds.refine false
  top holds := holds.refine true
  functionTop {state _} parameter typeVar holds := by
    change RefinedType.Tidy (state.Covers []) _
    rw [Shape.refineTop, Shape.refine, RefinedType.tidy_function]
    exact ⟨RefinedType.tidy_atom.mpr trivial, holds⟩
  dataTop state name typeVars := by
    rw [Shape.refineTop, Shape.dataOf, Shape.refine, RefinedType.refineAll_eq_map,
      List.map_map]
    refine RefinedType.tidy_scalar.mpr ⟨trivial, by rintro _ ⟨⟩, ?_⟩
    intro t member
    rcases List.mem_map.mp member with ⟨typeVar, _, rfl⟩
    exact RefinedType.tidy_atom.mpr trivial
  argument {_ x _ _} holds := .argument x holds
  result {_ x _ _} holds := .result x holds
  renamed old new oldType holds := holds.renameVar old new oldType
  applied sound holds := sound.assignment.apply holds
  fitsResult := id
  fitsRenamed _ _ _ := id
  scrutinee _ _ := trivial

theorem scoped_accounting : accounting.Scoped where
  ghost name scope type := scope.addGhost name type
  binder _ scope type := scope.addVariable _ type
  fact name scope type := scope.assume (Environment.Tidy.covered_factAbout name type)
  argument {_ _ x _ _} scope goal := scope.addVariable x (.argument x goal)
  result {_ x _ _} goal := .result x goal
  typeVar name scope := scope.addTypeVar name
  recursion parameters names scope goal := scope.recursiveScope parameters goal names

theorem built_accounting : accounting.Built where
  symbol _ := id
  application left right type := ⟨left, right, type⟩
  withType body type := body.withType type
  lambda _ holds type := ⟨holds, type⟩
  fix _ holds := ⟨holds, holds.type⟩
  conditional scope left right type := by
    exact ⟨scope.assumptions _ (SortedSet.mem_insert.mpr (.inl rfl)), left, right, type⟩
  caseOf subject each type := ⟨subject, Program.allCases_iff.mpr each, type⟩

theorem upholds_accounting (tracks : promise.Tracks setting) :
    Upholds setting promise accounting where
  lasting := lasting_accounting
  types := typed_accounting
  scopes := scoped_accounting
  programs := built_accounting
  check {memory env left right program} state scope leftType rightType body := by
    have conserves : memory.state.Conserves []
        (memory.state.addPending [.subtype env left right]) [] :=
      conserves_addPending fun _ => .of_subtype (scope.mono fun _ => covers_addPending)
        (leftType.mono fun _ => covers_addPending)
        (rightType.mono fun _ => covers_addPending)
    apply (yields_constrain tracks.toSteady (.subtype env left right)).bind
    intro _ middle same
    have accounted := conserves.accounted state
    have grows := conserves.covers
    rw [← same] at accounted grows
    apply yields_solveIncrementally
    · intro _
      apply (yields_solve tracks program accounted).mono
      rintro _ after ⟨ready, covers⟩
      exact ⟨ready.accounted, fun unknown covered => covers unknown (grows unknown covered),
        fun _ _ _ _ => trivial⟩
    · exact fun _ => ⟨accounted, grows, fun _ _ _ _ => trivial⟩
  guard {memory env} name state scope := by
    let pending : Constraint := .wellFormedGuard env (.unknown [] name)
    let after := memory.state.addPending [pending]
    have listed : pending ∈ after.inPlay [] := by
      simp [SearchState.mem_inPlay, after, SearchState.addPending]
    have guard : (Formula.unknown [] name).Covered (after.Covers []) :=
      ⟨.inr ⟨pending, listed, List.mem_cons_self⟩, List.forall_mem_nil _⟩
    have scopeAfter : env.Tidy (after.Covers []) := scope.mono fun _ => covers_addPending
    have conserves : memory.state.Conserves [] after [] :=
      conserves_addPending fun _ => .of_guard scopeAfter guard
    exact fun calm => ⟨tracks.moved memory after rfl (List.Subset.refl _) calm,
      conserves.accounted state, conserves.covers, scopeAfter.assume guard,
      scopeAfter.refute guard⟩
  signature {memory outer env name constructorName datatype scrutinee} state outerScope
      listed member scope type known := by
    apply (yields_caseSignature tracks.toSteady _
      (.inr (tracks.missing constructorName)) state.assignment).mono
    · rintro signature after ⟨assignment, schema, names, found, equal, assigned, rfl⟩
      have kept : memory.state.Conserves [] after.state [] := by
        rw [equal]
        exact .of_new (fun _ => id) (fun _ _ => .inl) (fun _ _ => assigned) fun _ _ => .inl
      rcases Environment.mem_symbolsOfArity_of_lookup? found with ⟨arity, inScope⟩
      have instantiated := Schema.tidy_instantiate (scope.symbols arity _ inScope) names
      exact ⟨kept.accounted state, kept.covers,
        (assigned.apply instantiated).mono kept.covers⟩
    · rintro base arguments refinement rfl assignment name argument inside assigned
      exact assigned.insert name ((RefinedType.tidy_scalar.mp type).2.2 argument inside)

end Search

theorem SearchState.accounted_start (candidate : Candidate) :
    (SearchState.start candidate).Accounted [] where
  constraints := List.forall_mem_nil _
  assignment := by rintro _ _ ⟨⟩
  clauses := List.forall_mem_nil _

structure Goal.Known (goal : Goal) : Prop where
  environment : goal.environment.Tidy fun _ => False
  specification : goal.schema.body.Tidy fun _ => False

open Search in
theorem Goal.Known.yields_search {setting : Setting σ} {promise : Promise σ} {goal : Goal}
    (known : goal.Known) (tracks : promise.Tracks setting) (solver : σ) :
    Yields setting promise goal.search (setting.start solver) fun program after =>
      ∃ found : Program, program = after.state.finalize found ∧ after.state.Ready ∧
        found.All (RefinedType.Tidy (after.state.Covers []))
          (Formula.Covered (after.state.Covers [])) := by
  apply Yields.read_bind
  apply Search.keeps_searchGoal (Search.upholds_accounting tracks)
  · exact SearchState.accounted_start _
  · exact known.environment.mono fun _ => False.elim
  · exact known.specification.mono fun _ => False.elim
  · intro found middle accounted _ body
    apply (Search.yields_solve tracks found accounted).bind
    rintro _ after ⟨ready, covers⟩
    refine Yields.get_bind (Yields.pure ⟨found, rfl, ready, ?_⟩)
    exact Program.All.mono body (fun _ tidy => tidy.mono covers) fun _ covered =>
      covered.mono covers

/-! ## A goal that takes an application -/

def isOneSchema : Schema :=
  .forAll "b" (.mono (.function "y" (.atom (.typeVar "b") .top) (.atom .bool .top)))

def isOneGoal : Goal where
  name := "answer"
  environment := ((∅ : Environment).addConstant "one" (.mono (.atom .int .top))).addConstant
    "isOne" isOneSchema
  schema := .mono (.atom .bool .top)

def isOneSetting : Setting Record where
  parameters := { applicationDepth := 1, matchDepth := 0, conditionDepth := 0 }
  solver := .fixed true
  sources := .none
  steps := 10

theorem isOneGoal_known : isOneGoal.Known where
  environment := by
    have empty : (∅ : Environment).Tidy fun _ => False :=
      ⟨fun _ => List.forall_mem_nil _, List.forall_mem_nil _, List.forall_mem_nil _,
        List.forall_mem_nil _⟩
    apply Environment.Tidy.addConstant (empty.addConstant _ _)
    · exact RefinedType.tidy_function.mpr
        ⟨RefinedType.tidy_atom.mpr trivial, RefinedType.tidy_atom.mpr trivial⟩
    · exact RefinedType.tidy_atom.mpr trivial
  specification := RefinedType.tidy_atom.mpr trivial

end Inhabit
