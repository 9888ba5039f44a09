import Inhabit.Proofs.Faults.Comparisons
import Inhabit.Proofs.Faults.Constructors
import Inhabit.Proofs.Search.Traversal
import Inhabit.Solving.Scripted

/-! How a synthesis can end where nothing that it is given is at fault.

A search that solves as it goes matches only on terms of the datatype that it looks
for. One that leaves solving to the end takes terms of any type for scrutinees, and is
stopped by the first one that its constructor does not fit. -/

namespace Inhabit

/-- Every constructor that a datatype lists builds its values, and neither an argument
of the goal nor a name that the search draws is that of a constructor. -/
structure Goal.WellFormed (goal : Goal) : Prop where
  constructors : goal.environment.BindsConstructors
  arguments : ∀ parameter ∈ goal.schema.body.parameters,
    ¬ goal.environment.Lists parameter.1
  caseBinders : ∀ number : Nat,
    ¬ goal.environment.Lists (Stem.caseBinder ++ toString number)
  recursiveCalls : ∀ number : Nat,
    ¬ goal.environment.Lists (Stem.recursiveCall ++ toString number)

structure Solver.Answers (solver : Solver σ) : Prop where
  refine : ∀ clauses qualifiers program candidates memory, ∃ survivors after,
    (solver.refine clauses qualifiers program candidates).run memory = (.ok survivors, after)
  prune : ∀ space memory, ∃ pruned after,
    (solver.prune space).run memory = (.ok pruned, after)

namespace Search

variable {σ : Type} {setting : Setting σ} {base : Environment} {memory : Memory σ}

/-- A search that is stopped has run out of steps, or it solves in batches and takes a
constructor in scope for a missing one. -/
def stopping (incremental : Bool) (base : Environment) : Promise σ where
  calm _ := True
  stopped interrupt _ := interrupt = .unfinished ∨
    incremental = false ∧ ∃ name context, base.Lists name ∧
      interrupt = .failed ⟨.missingConstructor name, context⟩
  renamed _ _ := id
  resumed _ _ _ := id

/-- Constraints can be lowered, scopes have the constructors, and a scrutinee is of its
datatype if the search solves as it goes. -/
def building (incremental : Bool) (base : Environment) : Assertions where
  state := SearchState.IsLowerable
  grows before after := before.assignment.ExtendedBy after.assignment
  later _ _ := True
  scope _ env := base.Offers env
  type _ _ := True
  goal _ t := ∀ parameter ∈ t.parameters, ¬ base.Lists parameter.1
  fits state shape t := incremental = true → ∀ datatype count depth,
    shape.Ends datatype count depth →
      state.assignment.Exposes datatype count depth t.shape
  scrutinee name datatype t := incremental = true → ∃ arguments refinement,
    arguments.length = datatype.parameters.length ∧
      t = .scalar (.data name) arguments refinement
  body _ _ := True

variable {incremental : Bool}

theorem steady_stopping (answers : setting.solver.Answers) :
    (stopping incremental base).Steady setting where
  moved _ _ _ _ _ := trivial
  unfinished _ _ := .inl rfl
  recorded memory unknown space _ _ := by
    apply yields_addQualifiers
    rcases answers.prune space memory.solver with ⟨pruned, after, answered⟩
    apply Yields.ask
    · exact fun _ _ _ _ => ⟨trivial, rfl, trivial⟩
    · intro interrupt solver interrupted
      cases answered.symm.trans interrupted

theorem yields_refineCandidates_answered (answers : setting.solver.Answers)
    (program : Program) :
    Yields setting (stopping incremental base) (refineCandidates program) memory
      fun _ after => ∃ candidates,
        after.state = { memory.state with clauses := [], candidates } := by
  apply yields_refineCandidates (steady_stopping answers) program
  intro _
  rcases answers.refine memory.state.clauses memory.state.qualifiers program
    memory.state.candidates memory.solver with ⟨survivors, after, answered⟩
  apply Yields.ask
  · exact fun _ _ _ _ => ⟨trivial, rfl, trivial⟩
  · intro interrupt solver interrupted
    cases answered.symm.trans interrupted

theorem yields_solve_building (answers : setting.solver.Answers) (program : Program)
    (state : memory.state.IsLowerable) :
    Yields setting (stopping incremental base) (solve program) memory fun _ after =>
      after.state.IsLowerable ∧
        memory.state.assignment.ExtendedBy after.state.assignment ∧
        ∀ env left right datatype count depth,
          .subtype env left right ∈ memory.state.pending →
            right.Ends datatype count depth →
              after.state.assignment.Exposes datatype count depth left.shape := by
  have steady : (stopping incremental base).Steady setting := steady_stopping answers
  apply (yields_simplifyAll steady).bind
  rintro _ simplified ⟨_, passes, simplifies⟩
  have rewritten := simplifies.isLowerable rfl state
  let invariant (left : List Constraint) (state : SearchState) : Prop :=
    (∀ constraint ∈ left, constraint.IsSimple) ∧ state.IsLowerable ∧
      state.assignment = simplified.state.assignment
  have start : invariant simplified.state.simple { simplified.state with simple := [] } :=
    ⟨rewritten.simple, ⟨rewritten.pending, List.forall_mem_nil _⟩, rfl⟩
  have lowered : Yields setting (stopping incremental base) lowerAll simplified
      fun _ after => invariant [] after.state := by
    refine yields_lowerAll steady ?_ ?_ start
    · intro constraint rest before after holds lowered
      exact ⟨(List.forall_mem_cons.mp holds.1).2, lowered.isLowerable holds.2.1,
        lowered.assignment_eq.trans holds.2.2⟩
    · exact fun constraint rest other holds => .inl (List.forall_mem_cons.mp holds.1).1
  apply lowered.bind
  rintro _ last ⟨_, lowerable, same⟩
  apply (yields_refineCandidates_answered answers program).mono
  rintro _ after ⟨candidates, equal⟩
  rw [equal]
  refine ⟨⟨lowerable.pending, lowerable.simple⟩, ?_⟩
  dsimp only
  rw [same]
  exact ⟨simplifies.extends, fun _ _ _ _ _ _ => simplifies.exposes rfl⟩

theorem lasting_building : (building incremental base).Lasting where
  refl _ _ _ := id
  trans := .trans
  laterOfGrows _ := trivial
  laterTrans _ _ := trivial
  scope _ := id
  type _ := id
  goal _ := id
  body _ := id
  fits grows holds solved datatype count depth ends :=
    (holds solved datatype count depth ends).mono grows

theorem typed_building : (building incremental base).Typed where
  symbol _ _ _ := trivial
  goal _ := trivial
  bottom _ := trivial
  top _ := trivial
  functionTop _ _ _ := trivial
  dataTop _ _ _ := trivial
  argument _ := trivial
  result _ := trivial
  renamed _ _ _ _ := trivial
  applied _ _ := trivial
  fitsResult {_ parameter _ argument _ _ _} fits solved datatype count depth ends :=
    fits solved datatype count (depth + 1) (.result parameter argument ends) _ _ _ rfl
  fitsRenamed old new oldType fits solved datatype count depth ends := by
    rw [RefinedType.shape_renameVar]
    exact fits solved datatype count depth ends
  scrutinee {_ name typeVars datatype _} fits length solved := by
    have ends : (Shape.dataOf name typeVars).Ends name datatype.parameters.length 0 :=
      .here () ((List.length_map _).trans length)
    rcases fits solved _ _ _ ends with ⟨links, reaches⟩
    exact reaches.apply

theorem scoped_building
    (caseBinders : ∀ number : Nat, ¬ base.Lists (Stem.caseBinder ++ toString number))
    (recursiveCalls : ∀ number : Nat, ¬ base.Lists (Stem.recursiveCall ++ toString number)) :
    (building incremental base).Scoped where
  ghost _ scope _ := scope.of_eq rfl rfl
  binder number scope _ := scope.addSymbol (caseBinders number) _
  fact _ scope _ := scope.assume _
  argument scope goal := scope.addSymbol (goal _ List.mem_cons_self) _
  result goal parameter member := goal parameter (List.mem_cons_of_mem _ member)
  typeVar name scope := scope.addTypeVar name
  recursion parameters names scope _ :=
    scope.recursiveScope recursiveCalls parameters _ names

theorem built_building : (building incremental base).Built where
  symbol _ _ := trivial
  application _ _ _ := trivial
  withType _ _ := trivial
  lambda _ _ _ := trivial
  fix _ _ := trivial
  conditional _ _ _ _ := trivial
  caseOf _ _ _ := trivial

theorem upholds_building (answers : setting.solver.Answers)
    (caseBinders : ∀ number : Nat, ¬ base.Lists (Stem.caseBinder ++ toString number))
    (recursiveCalls : ∀ number : Nat, ¬ base.Lists (Stem.recursiveCall ++ toString number)) :
    Upholds setting (stopping setting.parameters.incremental base)
      (building setting.parameters.incremental base) where
  lasting := lasting_building
  types := typed_building
  scopes := scoped_building caseBinders recursiveCalls
  programs := built_building
  check {memory env left right program} state _ _ _ _ := by
    let pending := memory.state.addPending [.subtype env left right]
    have subtype : (Constraint.subtype env left right).IsLowerable := by
      rintro _ _ ⟨⟩
    have lowerable : pending.IsLowerable :=
      state.addPending (List.forall_mem_singleton.mpr subtype)
    apply (yields_constrain (steady_stopping answers) (.subtype env left right)).bind
    intro _ middle same
    change middle.state = pending at same
    rw [← same] at lowerable
    have grown : memory.state.assignment = middle.state.assignment := same ▸ rfl
    -- In a batch the comparison only waits, and the type may still turn out to be another.
    apply yields_solveIncrementally
    · intro _
      apply (yields_solve_building answers program lowerable).mono
      rintro _ after ⟨lowerableAfter, extended, exposes⟩
      rw [← grown] at extended
      refine ⟨lowerableAfter, extended, ?_⟩
      rintro t shape rfl rfl _ datatype count depth ends
      have compared : .subtype env t.shape.refineBottom (Shape.refineTop shape) ∈
          middle.state.pending :=
        same ▸ List.mem_append_right _ List.mem_cons_self
      have exposed := exposes _ _ _ _ _ _ compared (ends.refine true)
      rwa [Shape.refineBottom, Shape.shape_refine] at exposed
    · intro batch
      exact ⟨lowerable, fun _ _ => grown ▸ id,
        fun _ _ _ _ solved => absurd (batch.symm.trans solved) nofun⟩
  guard {memory env} name state scope := by
    have guard : (Constraint.wellFormedGuard env (.unknown [] name)).IsLowerable := by
      rintro _ _ ⟨⟩
      exact ⟨[], name, rfl⟩
    exact fun _ => ⟨trivial, state.addPending (List.forall_mem_singleton.mpr guard),
      trivial, scope.assume _, scope.refute _⟩
  signature {memory outer env name constructorName datatype scrutinee} state outerScope
      listed member scope _ known := by
    have inBase : (name, datatype) ∈ base.datatypes.entries := outerScope.datatypes ▸ listed
    have constructs : (∃ schema, env.lookup? constructorName = some schema ∧
        ∀ names, RefinedType.Constructs (schema.instantiate.run names).1.lastType scrutinee) ∨
        (stopping setting.parameters.incremental base : Promise σ).AllowsMissing
          constructorName := by
      cases solved : setting.parameters.incremental with
      | false =>
          have lists : base.Lists constructorName := ⟨_, inBase, member⟩
          refine .inr fun _ context _ => ?_
          exact Or.inr ⟨rfl, constructorName, context, lists, rfl⟩
      | true =>
          rcases known solved with ⟨arguments, refinement, length, rfl⟩
          rcases scope.constructors name datatype (scope.datatypes ▸ inBase)
            constructorName member with ⟨schema, found, builds⟩
          exact .inl ⟨schema, found, fun names => builds.constructs names refinement length⟩
    apply (yields_caseSignature_assigns (steady_stopping answers) constructs).mono
    rintro _ after ⟨assignment, equal⟩
    rw [equal]
    exact ⟨⟨state.pending, state.simple⟩, trivial, trivial⟩

end Search

open Search in
/-- Where nothing is at fault, a synthesis that ends finds a program or tells that there
is none within its bounds, unless it solves in batches: then it may take a constructor
in scope for a missing one. -/
theorem wellFormed_goals_fault_only_in_batches {setting : Setting σ} {goal : Goal}
    {solver after : σ} {outcome : Except Interrupt Program} (wellFormed : goal.WellFormed)
    (answers : setting.solver.Answers)
    (ran : synthesize setting goal solver = (outcome, after)) :
    (∃ program, outcome = .ok program) ∨
      outcome = .error (.failed ⟨.noSolution goal.name, none⟩) ∨
      outcome = .error .unfinished ∨
      setting.parameters.incremental = false ∧ ∃ name context,
        goal.environment.Lists name ∧
          outcome = .error (.failed ⟨.missingConstructor name, context⟩) := by
  have upholds := upholds_building answers wellFormed.caseBinders wellFormed.recursiveCalls
  have ended : Yields setting (stopping setting.parameters.incremental goal.environment)
      goal.search (setting.start solver) fun _ _ => True := by
    apply Yields.read_bind
    apply keeps_searchGoal upholds
    · exact ⟨List.forall_mem_nil _, List.forall_mem_nil _⟩
    · exact ⟨rfl, wellFormed.constructors⟩
    · exact wellFormed.arguments
    · intro found middle lowerable _ _
      apply (yields_solve_building answers found lowerable).bind
      exact fun _ _ _ => Yields.get_bind (Yields.pure trivial)
  have ended := ended trivial
  rcases synthesize_cases ran with
    ⟨memory, _, ⟨program, rfl, _⟩ | ⟨interrupt, rfl, stops, searched⟩ | rfl⟩
  · exact .inl ⟨program, rfl⟩
  · rw [searched] at ended
    rcases ended.1 stops with rfl | ⟨batch, name, context, lists, rfl⟩
    · exact .inr (.inr (.inl rfl))
    · exact .inr (.inr (.inr ⟨batch, name, context, lists, rfl⟩))
  · exact .inr (.inl rfl)

/-! ## A goal that takes a match -/

def boxes : Environment :=
  ((∅ : Environment).addDatatype "Box"
    { parameters := ["a"], constructors := ["box"] }).addConstant "box"
      (.forAll "a" (.mono (.function "n" (.atom (.typeVar "a") .top)
        (.scalar (.data "Box") [.atom (.typeVar "a") .top] .top))))

/-- A number is wanted, and there is one in the box. The other symbol is no box. -/
def boxGoal : Goal where
  name := "content"
  environment := (boxes.addVariable "b" (.atom .bool .top)).addVariable "c"
    (.scalar (.data "Box") [.atom .int .top] .top)
  schema := .mono (.atom .int .top)

def boxSetting (incremental : Bool) : Setting Record where
  parameters :=
    { applicationDepth := 0, scrutineeDepth := 0, matchDepth := 1, conditionDepth := 0
      incremental }
  solver := .fixed true
  sources := .none
  steps := 10

theorem Solver.answers_fixed (accept : Bool) : (Solver.fixed accept).Answers where
  refine _ _ _ _ _ := ⟨_, _, rfl⟩
  prune _ _ := ⟨_, _, rfl⟩

theorem boxGoal_wellFormed : boxGoal.WellFormed := by
  have only (name : String) (lists : boxGoal.environment.Lists name) : name = "box" := by
    rcases lists with ⟨entry, listed, member⟩
    rw [List.mem_singleton.mp listed] at member
    exact List.mem_singleton.mp member
  have drawn (letter : Char) (number : Nat) :
      ¬ boxGoal.environment.Lists (String.ofList ['_', letter] ++ toString number) := by
    intro lists
    have first := congrArg (fun name => name.toList.head?) (only _ lists)
    rw [String.toList_append, String.toList_ofList] at first
    exact absurd (Option.some_inj.mp first) (by decide)
  refine ⟨?_, List.forall_mem_nil _, drawn 'z', drawn 'f'⟩
  intro name datatype listed constructorName member
  cases List.mem_singleton.mp listed
  cases List.mem_singleton.mp member
  refine ⟨_, rfl, [.atom (.typeVar "a") .top], .top, rfl, rfl, ?_⟩
  exact List.forall_mem_singleton.mpr ⟨"a", .top, rfl⟩

/-- A search that solves as it goes passes over the symbol that is no box. -/
theorem boxGoal_meets_no_fault :
    (synthesize (boxSetting true) boxGoal {}).1.map Program.render =
        .ok "match c with box _z3 -> _z3" ∧
      ((∃ program, (synthesize (boxSetting true) boxGoal {}).1 = .ok program) ∨
        (synthesize (boxSetting true) boxGoal {}).1 =
          .error (.failed ⟨.noSolution boxGoal.name, none⟩) ∨
        (synthesize (boxSetting true) boxGoal {}).1 = .error .unfinished ∨
        (boxSetting true).parameters.incremental = false ∧ ∃ name context,
          boxGoal.environment.Lists name ∧
            (synthesize (boxSetting true) boxGoal {}).1 =
              .error (.failed ⟨.missingConstructor name, context⟩)) :=
  ⟨by decide +kernel,
    wellFormed_goals_fault_only_in_batches boxGoal_wellFormed (Solver.answers_fixed true)
      (Prod.eta _).symm⟩

/-- One that solves in batches is stopped by it. -/
theorem boxGoal_faults_in_batches : boxGoal.WellFormed ∧
    (boxSetting false).solver.Answers ∧
      (synthesize (boxSetting false) boxGoal {}).1.map Program.render =
        .error (.failed ⟨.missingConstructor "box",
          some (.note "`Box _a1` does not construct `\x7bBool | _v == b\x7d`")⟩) :=
  ⟨boxGoal_wellFormed, Solver.answers_fixed true, by decide +kernel⟩

/-- So the two do not agree, although the solver accepts whatever it is asked and all
constructors are bound. -/
theorem boxGoal_solved_as_it_goes :
    (∀ entry ∈ boxGoal.environment.datatypes.entries,
      ∀ name ∈ entry.2.constructors, (boxGoal.environment.lookup? name).isSome) ∧
      (synthesize (boxSetting true) boxGoal {}).1.isOk = true ∧
        (synthesize (boxSetting false) boxGoal {}).1.isOk = false := by
  decide +kernel

end Inhabit
