import Inhabit.Proofs.Search.Branches
import Inhabit.Proofs.Simplification.Passes
import Inhabit.Proofs.Unification.FreshCopy
import Inhabit.Proofs.Unknowns.Formulas
import Inhabit.Search.Solve

/-! What the parts of a solve step do to the memory of a search.

Rewriting goes through complete passes or fails, and leaves alone what lowering and
refinement are about. Lowering turns a constraint into a clause or into qualifier
spaces. -/

namespace Inhabit

/-! ## Rewriting -/

/-- What rewriting has no part in. -/
def SearchState.solved (state : SearchState) :
    QualifierMap × List HornClause × List Candidate :=
  (state.qualifiers, state.clauses, state.candidates)

namespace Rewrite

variable {α β : Type} {kept : Workspace → Prop}

def Keeps (kept : Workspace → Prop) (computation : Rewrite α) : Prop :=
  ∀ workspace, kept workspace → kept (computation.run.run workspace).2

theorem Keeps.bind {computation : Rewrite α} {next : α → Rewrite β}
    (first : Keeps kept computation) (second : ∀ value, Keeps kept (next value)) :
    Keeps kept (computation >>= next) := by
  intro before holds
  have middleHolds := first before holds
  cases ran : computation.run.run before with
  | mk result middle =>
      rw [ran] at middleHolds
      cases result with
      | error interrupt =>
          rw [run_bind_of_error ran]
          exact middleHolds
      | ok value =>
          rw [run_bind_of_ok ran]
          exact second value middle middleHolds

theorem Keeps.pure (value : α) : Keeps kept (Pure.pure value) :=
  fun _ holds => holds

theorem Keeps.modifyState {change : SearchState → SearchState}
    (changed : ∀ workspace, kept workspace →
      kept { workspace with state := change workspace.state }) :
    Keeps kept (Rewrite.modifyState change) :=
  changed

theorem Keeps.get_bind {next : Workspace → Rewrite β}
    (second : ∀ workspace, Keeps kept (next workspace)) :
    Keeps kept (do next (← get)) :=
  fun workspace holds => second workspace workspace holds

theorem Keeps.mapM {body : α → Rewrite β} (each : ∀ element, Keeps kept (body element))
    (elements : List α) : Keeps kept (elements.mapM body) := by
  induction elements with
  | nil => exact Keeps.pure []
  | cons element rest induction =>
      rw [List.mapM_cons]
      exact (each element).bind fun _ => induction.bind fun _ => Keeps.pure _

end Rewrite

section Untouched

variable {kept : Workspace → Prop}
  (moves : ∀ before after : Workspace, before.names.issued ≤ after.names.issued →
    after.state.solved = before.state.solved → kept before → kept after)

include moves

open Rewrite

theorem keeps_rewriteStep (constraint : Constraint) :
    Keeps kept (rewriteStep constraint) := by
  intro workspace holds
  rw [run_rewriteStep]
  cases constraint.rewriting workspace.state.assignment with
  | decompose _ | keep | defer | drop | mismatch => exact holds
  | bind name type =>
      dsimp only
      split
      · exact holds
      · exact moves workspace _ (constraint.env.issued_le_freshCopy workspace.names type) rfl
          holds

theorem keeps_change_bind {α : Type} {change : SearchState → SearchState}
    {next : Unit → Rewrite α} (second : ∀ value, Keeps kept (next value))
    (same : ∀ state, (change state).solved = state.solved) :
    Keeps kept (Rewrite.modifyState change >>= next) :=
  (Keeps.modifyState fun workspace => moves workspace _ le_rfl (same _)).bind second

theorem keeps_rewriteAll (steps : Nat) (constraints : List Constraint) :
    Keeps kept (rewriteAll steps constraints) := by
  induction steps generalizing constraints with
  | zero =>
      cases constraints with
      | nil => exact Keeps.pure []
      | cons _ _ => exact fun _ holds => holds
  | succ steps induction =>
      cases constraints with
      | nil => exact Keeps.pure []
      | cons constraint rest =>
          apply (keeps_rewriteStep moves constraint).bind
          intro outcome
          cases outcome with
          | decomposed parts => exact induction _
          | unified retry wellFormed =>
              exact keeps_change_bind moves (fun _ => induction _) fun _ => rfl
          | simple constraint =>
              exact keeps_change_bind moves (fun _ => induction _) fun _ => rfl
          | deferred constraint => exact (induction _).bind fun _ => Keeps.pure _
          | discharged => exact induction _

theorem keeps_simplifyPasses (steps passes : Nat) :
    Keeps kept (simplifyPasses steps passes) := by
  induction passes with
  | zero => exact fun _ holds => holds
  | succ passes induction =>
      apply Keeps.get_bind
      intro workspace
      apply Keeps.bind
      · exact Keeps.get_bind fun _ =>
          keeps_change_bind moves (fun _ => Keeps.pure _) fun _ => rfl
      intro pending
      apply (Keeps.mapM (fun _ => keeps_rewriteAll moves _ _) pending).bind
      intro deferred
      apply Keeps.get_bind
      intro middle
      split
      · exact keeps_change_bind moves (fun _ => Keeps.pure _) fun _ => rfl
      · exact keeps_change_bind moves (fun _ => induction.bind fun _ => Keeps.pure _)
          fun _ => rfl

end Untouched

theorem Rewrites.recoverable {before after : Workspace} {constraints : List Constraint}
    {result : Except Failure (List Constraint)}
    (rewrites : Rewrites before constraints result after) {failure : Failure}
    (failed : result = .error failure) : failure.isFatal = false := by
  induction rewrites generalizing failure with
  | done => cases failed
  | decompose _ _ induction | bind _ _ _ induction | keep _ _ induction
  | drop _ _ induction => exact induction failed
  | @defer _ _ _ _ inner _ _ induction =>
      cases inner with
      | ok _ => cases failed
      | error _ =>
          cases failed
          exact induction rfl
  | mismatch | occurs =>
      cases failed
      rfl

theorem Simplifies.recoverable {before after : Workspace} {passes : Nat}
    {result : Except Failure Unit} (simplifies : Simplifies before passes result after)
    {failure : Failure} (failed : result = .error failure) : failure.isFatal = false := by
  induction simplifies with
  | fail rewrites =>
      cases failed
      exact rewrites.recoverable rfl
  | last => cases failed
  | next _ _ _ induction => exact induction failed

namespace Search

theorem run_rewrite_simplifyAll_advances (setting : Setting σ) (memory : Memory σ) :
    let after := (rewrite simplifyAll setting memory : Except Interrupt Nat × Memory σ).2
    memory.names.issued ≤ after.names.issued ∧ after.state.solved = memory.state.solved := by
  let kept (workspace : Workspace) : Prop :=
    memory.names.issued ≤ workspace.names.issued ∧
      workspace.state.solved = memory.state.solved
  have moves (before after : Workspace) (advances : before.names.issued ≤ after.names.issued)
      (same : after.state.solved = before.state.solved) (holds : kept before) : kept after :=
    ⟨holds.1.trans advances, same.trans holds.2⟩
  have start : kept ⟨memory.names, memory.state⟩ := ⟨le_rfl, rfl⟩
  exact keeps_simplifyPasses moves setting.steps setting.steps _ start

theorem run_rewrite_simplifyAll {setting : Setting σ} {memory after : Memory σ}
    {result : Except Interrupt Nat}
    (run : (rewrite simplifyAll : Search σ Nat) setting memory = (result, after))
    (finished : result ≠ .error .unfinished) :
    ∃ passes outcome,
      Simplifies ⟨memory.names, memory.state⟩ passes outcome ⟨after.names, after.state⟩ ∧
      result = (outcome.map fun _ => passes).mapError .failed := by
  unfold rewrite at run
  rcases ran : (simplifyAll setting.steps).run ⟨memory.names, memory.state⟩ with
    ⟨outcome, workspace⟩
  rw [ran] at run
  cases run
  exact simplifies_of_run ran finished

variable {σ : Type} {setting : Setting σ} {promise : Promise σ} {memory : Memory σ}

/-- The solver is asked to prune the space only if the sources propose it for terms
without unknowns. -/
def Proposed (setting : Setting σ) (space : QualifierSpace) : Prop :=
  ∃ terms : List Formula, (∀ term ∈ terms, term.Known) ∧
    (space = setting.sources.guards terms ∨ space = setting.sources.refinements terms)

/-- What a solve step does, apart from refining, stands by the promise. -/
structure Promise.Steady (setting : Setting σ) (promise : Promise σ) : Prop where
  moved (memory : Memory σ) (state : SearchState)
    (qualifiers : state.qualifiers = memory.state.qualifiers)
    (candidates : state.candidates ⊆ memory.state.candidates)
    (calm : promise.calm memory) : promise.calm { memory with state }
  unfinished (memory : Memory σ) (calm : promise.calm memory) :
    promise.stopped .unfinished memory
  recorded (memory : Memory σ) (unknown : String) (space : QualifierSpace)
    (proposed : Proposed setting space)
    (new : memory.state.qualifiers.contains unknown = false) :
    Yields setting promise (addQualifiers unknown space) memory fun _ after =>
      ∃ space, after.state = { memory.state with
        qualifiers := memory.state.qualifiers.insert unknown space }

theorem yields_constrain (steady : promise.Steady setting) (constraint : Constraint) :
    Yields setting promise (constrain constraint) memory
      fun _ after => after.state = memory.state.addPending [constraint] :=
  fun calm => ⟨steady.moved memory _ rfl (List.Subset.refl _) calm, rfl⟩

theorem yields_solveIncrementally {program : Program} {result : Unit → Memory σ → Prop}
    (solved : setting.parameters.incremental = true →
      Yields setting promise (solve program) memory result)
    (unsolved : setting.parameters.incremental = false → result () memory) :
    Yields setting promise (solveIncrementally program) memory result := by
  unfold solveIncrementally
  apply Yields.read_bind
  cases incremental : setting.parameters.incremental with
  | true => exact solved incremental
  | false => exact Yields.pure (unsolved incremental)

theorem yields_simplifyAll (steady : promise.Steady setting) :
    Yields setting promise (rewrite simplifyAll) memory fun _ after =>
      after.state.solved = memory.state.solved ∧
      ∃ passes, Simplifies ⟨memory.names, memory.state⟩ passes (.ok ())
        ⟨after.names, after.state⟩ := by
  intro calm
  cases ran : (rewrite simplifyAll : Search σ Nat) setting memory with
  | mk result after =>
      have same : after.state.solved = memory.state.solved := by
        have untouched := (run_rewrite_simplifyAll_advances setting memory).2
        rwa [ran] at untouched
      have solver : after = { memory with names := after.names, state := after.state } := by
        rw [← (Prod.mk.inj ran).2]
      have qualifiers : after.state.qualifiers = memory.state.qualifiers :=
        congrArg Prod.fst same
      have candidates : after.state.candidates = memory.state.candidates :=
        congrArg (fun solved => solved.2.2) same
      have calmAfter : promise.calm after := by
        rw [solver]
        exact steady.moved { memory with names := after.names } after.state qualifiers
          (candidates ▸ List.Subset.refl _) (promise.renamed memory after.names calm)
      by_cases unfinished : result = .error .unfinished
      · rw [unfinished]
        exact ⟨fun _ => steady.unfinished after calmAfter, nofun⟩
      · rcases run_rewrite_simplifyAll ran unfinished with
          ⟨passes, outcome, simplifies, rfl⟩
        cases outcome with
        | ok _ => exact ⟨calmAfter, same, passes, simplifies⟩
        | error failure =>
            have recoverable := simplifies.recoverable rfl
            exact ⟨fun fatal => absurd (recoverable.symm.trans fatal) nofun,
              fun _ => calmAfter⟩

/-! ## Lowering -/

theorem known_scalars (env : Environment) (assignment : TypeAssignment) :
    ∀ term ∈ env.scalars assignment, term.Known := by
  intro term member
  rcases List.mem_flatMap.mp member with ⟨⟨name, type⟩, _, isTerm⟩
  cases type with
  | function _ _ _ => cases isTerm
  | scalar base arguments refinement =>
      cases base with
      | bool | int | typeVar _ =>
          rw [List.mem_singleton.mp isTerm]
          rfl
      | data datatype =>
          cases metric : env.metric? datatype with
          | none =>
              simp only [Environment.termsOf, metric] at isTerm
              rw [List.mem_singleton.mp isTerm]
              rfl
          | some measure =>
              simp only [Environment.termsOf, metric] at isTerm
              rcases List.mem_cons.mp isTerm with rfl | isVar
              · rfl
              · rw [List.mem_singleton.mp isVar]
                rfl

end Search

inductive Constraint.IsSimple : Constraint → Prop where
  | free {env : Environment} {left right : RefinedType}
      (isFree : (env.freeVar? left).isSome || (env.freeVar? right).isSome) :
      IsSimple (.subtype env left right)
  | atoms (env : Environment) (base : BaseType) (left right : Formula) :
      IsSimple (.subtype env (.atom base left) (.atom base right))
  | refinement (env : Environment) (base : BaseType) (refinement : Formula) :
      IsSimple (.wellFormed env (.atom base refinement))
  | guard (env : Environment) (pending : Substitution) (unknown : String) :
      IsSimple (.wellFormedGuard env (.unknown pending unknown))

structure SearchState.Records (before : SearchState) (unknowns : List String)
    (after : SearchState) : Prop where
  keeps : ∀ unknown space, before.qualifiers.find? unknown = some space →
    after.qualifiers.find? unknown = some space
  records : ∀ unknown ∈ unknowns, after.qualifiers.contains unknown = true
  only : after = { before with qualifiers := after.qualifiers }

inductive Lowered (before : SearchState) : Constraint → SearchState → Prop where
  | again {env : Environment} {left right : RefinedType}
      (isFree : (env.freeVar? left).isSome || (env.freeVar? right).isSome) :
      Lowered before (.subtype env left right)
        (before.addPending [.subtype env left right])
  | nothing (env : Environment) (base : BaseType) (left right : Formula) :
      Lowered before (.subtype env (.atom base left) (.atom base right)) before
  | clause (env : Environment) (base : BaseType) (left right : Formula) :
      Lowered before (.subtype env (.atom base left) (.atom base right))
        (before.addClause (Search.subtypeClause env before.assignment
          (before.assignment.applyFormula left) (before.assignment.applyFormula right)))
  | refinement {after : SearchState} (env : Environment) (base : BaseType)
      (refinement : Formula)
      (recorded : before.Records refinement.unknownOccurrences after) :
      Lowered before (.wellFormed env (.atom base refinement)) after
  | guard {after : SearchState} (env : Environment) (pending : Substitution)
      (unknown : String) (recorded : before.Records [unknown] after) :
      Lowered before (.wellFormedGuard env (.unknown pending unknown)) after

theorem Lowered.simple_eq {before after : SearchState} {constraint : Constraint}
    (lowered : Lowered before constraint after) : after.simple = before.simple := by
  cases lowered with
  | again | nothing | clause => rfl
  | refinement _ _ _ recorded => rw [recorded.only]
  | guard _ _ _ recorded => rw [recorded.only]

theorem Lowered.assignment_eq {before after : SearchState} {constraint : Constraint}
    (lowered : Lowered before constraint after) :
    after.assignment = before.assignment := by
  cases lowered with
  | again | nothing | clause => rfl
  | refinement _ _ _ recorded => rw [recorded.only]
  | guard _ _ _ recorded => rw [recorded.only]

namespace Search

variable {σ : Type} {setting : Setting σ} {promise : Promise σ} {memory : Memory σ}

theorem records_insert {state : SearchState} {unknown : String}
    (new : state.qualifiers.contains unknown = false) (space : QualifierSpace) :
    state.Records [unknown]
      { state with qualifiers := state.qualifiers.insert unknown space } where
  keeps other old found := by
    have different : other ≠ unknown := by
      rintro rfl
      rw [SortedMap.contains, found] at new
      cases new
    exact (SortedMap.find?_insert_of_ne _ different space).trans found
  records other member := by
    rw [List.mem_singleton.mp member, SortedMap.contains, SortedMap.find?_insert_self]
    rfl
  only := rfl

theorem yields_addQualifiers {unknown : String} {space : QualifierSpace}
    (answered : Yields setting promise (ask (·.prune space)) memory fun pruned after =>
      after.state = memory.state ∧ promise.calm { after with state := { after.state with
        qualifiers := after.state.qualifiers.insert unknown pruned } }) :
    Yields setting promise (addQualifiers unknown space) memory fun _ after =>
      ∃ pruned, after.state = { memory.state with
        qualifiers := memory.state.qualifiers.insert unknown pruned } := by
  apply answered.bind
  rintro pruned after ⟨same, calm⟩
  exact fun _ => ⟨calm, pruned,
    congrArg (fun state : SearchState =>
      { state with qualifiers := state.qualifiers.insert unknown pruned }) same⟩

theorem contains_of_keeps {before after : QualifierMap}
    (keeps : ∀ unknown space, before.find? unknown = some space →
      after.find? unknown = some space) {unknown : String}
    (contained : before.contains unknown = true) : after.contains unknown = true := by
  rw [SortedMap.contains, Option.isSome_iff_exists] at contained ⊢
  exact contained.imp (keeps unknown)

theorem Records.trans {before middle after : SearchState} {first second : List String}
    (early : before.Records first middle) (late : middle.Records second after) :
    before.Records (first ++ second) after where
  keeps unknown space found := late.keeps unknown space (early.keeps unknown space found)
  records := List.forall_mem_append.mpr
    ⟨fun unknown member => contains_of_keeps late.keeps (early.records unknown member),
      late.records⟩
  only := by
    rw [late.only, early.only]

theorem yields_addAll (steady : promise.Steady setting) {unknowns : List String}
    (distinct : unknowns.Nodup)
    (new : ∀ unknown ∈ unknowns, memory.state.qualifiers.contains unknown = false)
    {propose : Setting σ → QualifierSpace} (proposed : Proposed setting (propose setting)) :
    Yields setting promise (do
      for unknown in unknowns do addQualifiers unknown (propose (← read))) memory
      fun _ after => memory.state.Records unknowns after.state := by
  -- Those that are left have no space yet, since each is met only once.
  let invariant (left : List String) (other : Memory σ) : Prop :=
    left.Nodup ∧ (∀ unknown ∈ left, other.state.qualifiers.contains unknown = false) ∧
      ∃ done, unknowns = done ++ left ∧ memory.state.Records done other.state
  have start : invariant unknowns memory :=
    ⟨distinct, new, [], rfl, fun _ _ => id, List.forall_mem_nil _, rfl⟩
  refine Yields.bind (Yields.forIn ?_ start) ?_
  · rintro unknown rest other ⟨distinct, new, done, split, records⟩
    have apart := List.nodup_cons.mp distinct
    have newHere := new unknown List.mem_cons_self
    apply Yields.read_bind
    apply (steady.recorded other unknown _ proposed newHere).bind
    rintro _ after ⟨space, equal⟩
    have inserted := records_insert newHere space
    rw [← equal] at inserted
    refine Yields.pure
      ⟨rfl, apart.2, ?_, done ++ [unknown], ?_, Records.trans records inserted⟩
    · intro later member
      have different : later ≠ unknown := fun same => apart.1 (same ▸ member)
      rw [equal, SortedMap.contains, SortedMap.find?_insert_of_ne _ different]
      exact new later (List.mem_cons_of_mem _ member)
    · rw [List.append_assoc]
      exact split
  · rintro _ after ⟨_, _, done, split, records⟩
    rw [List.append_nil] at split
    exact Yields.pure (split ▸ records)

theorem yields_lower (steady : promise.Steady setting) {constraint : Constraint}
    (simple : constraint.IsSimple ∨ (promise.calm memory →
      promise.stopped (.failed (.nonSimpleConstraint constraint)) memory)) :
    Yields setting promise (lower constraint) memory fun _ after =>
      Lowered memory.state constraint after.state := by
  -- A case either lowers the constraint or shows that it is none that can be lowered.
  have fault (failing : ¬ constraint.IsSimple) :
      Yields setting promise (Search.fail (.nonSimpleConstraint constraint)) memory
        fun (_ : Unit) after => Lowered memory.state constraint after.state :=
    Yields.fault (simple.resolve_left failing)
  have changed (state : SearchState)
      (qualifiers : state.qualifiers = memory.state.qualifiers)
      (candidates : state.candidates = memory.state.candidates)
      (lowered : Lowered memory.state constraint state) :
      Yields setting promise (modifyState fun _ => state) memory
        fun _ after => Lowered memory.state constraint after.state :=
    fun calm => ⟨steady.moved memory state qualifiers
      (candidates ▸ List.Subset.refl _) calm, lowered⟩
  apply Yields.get_bind
  dsimp only
  split
  case h_1 env left right =>
    split
    case isTrue isFree => exact changed _ rfl rfl (.again isFree)
    case isFalse bound =>
      split
      case h_1 =>
        split
        case isTrue same =>
          subst same
          split
          · exact Yields.pure (.nothing env _ _ _)
          · exact changed _ rfl rfl (.clause env _ _ _)
        case isFalse different =>
          apply fault
          rintro ⟨⟩
          · exact bound ‹_›
          · exact different rfl
      case h_2 other =>
        apply fault
        rintro ⟨⟩
        · exact bound ‹_›
        · exact other _ _ _ _ rfl rfl
  case h_2 env base refinement =>
    have terms : ∀ term ∈ memory.state.assignment.applyFormula (.value base.sort) ::
        env.scalars memory.state.assignment, term.Known :=
      List.forall_mem_cons.mpr ⟨rfl, known_scalars env _⟩
    apply (yields_addAll steady _ _ ⟨_, terms, .inr rfl⟩).mono
    · intro _ after recorded
      apply Lowered.refinement
      refine ⟨recorded.keeps, ?_, recorded.only⟩
      intro unknown occurs
      cases old : memory.state.qualifiers.contains unknown with
      | true => exact contains_of_keeps recorded.keeps old
      | false =>
          apply recorded.records
          apply List.mem_filter.mpr ⟨SortedSet.mem_ofList.mpr occurs, _⟩
          rw [old]
          rfl
    · exact refinement.unknowns.nodup_toList.filter _
    · intro unknown member
      exact Bool.not_eq_true' _ ▸ (List.mem_filter.mp member).2
  case h_3 env pending unknown =>
    split
    case isTrue old =>
      exact Yields.pure (.guard env pending unknown ⟨fun _ _ => id, by simpa using old, rfl⟩)
    case isFalse new =>
      have absent := Bool.eq_false_iff.mpr new
      apply Yields.read_bind
      apply (steady.recorded memory unknown _ ⟨_, known_scalars env _, .inl rfl⟩ absent).mono
      intro _ after recorded
      rcases recorded with ⟨space, equal⟩
      exact .guard env pending unknown (equal ▸ records_insert absent space)
  case h_4 env type other =>
    apply fault
    rintro ⟨⟩
    exact other _ _ rfl
  case h_5 env guard other =>
    apply fault
    rintro ⟨⟩
    exact other _ _ rfl

theorem yields_lowerAll (steady : promise.Steady setting)
    {invariant : List Constraint → SearchState → Prop}
    (step : ∀ constraint rest before after, invariant (constraint :: rest) before →
      Lowered before constraint after → invariant rest after)
    (simple : ∀ constraint rest (other : Memory σ),
      invariant (constraint :: rest) other.state → constraint.IsSimple ∨
        (promise.calm other →
          promise.stopped (.failed (.nonSimpleConstraint constraint)) other))
    (start : invariant memory.state.simple { memory.state with simple := [] }) :
    Yields setting promise lowerAll memory fun _ after => invariant [] after.state := by
  apply Yields.get_bind
  have taken : Yields setting promise (modifyState ({ · with simple := [] })) memory
      fun _ after => invariant memory.state.simple after.state :=
    fun calm => ⟨steady.moved memory { memory.state with simple := [] } rfl
      (List.Subset.refl _) calm, start⟩
  apply taken.bind
  intro _ after holds
  -- The invariant is about the constraints that are left.
  let about (left : List Constraint) (other : Memory σ) : Prop := invariant left other.state
  have start : about memory.state.simple after := holds
  refine Yields.forM ?_ start
  intro constraint rest other holds
  apply (yields_lower steady (simple constraint rest other holds)).mono
  exact fun _ after => step constraint rest other.state after.state holds

theorem yields_refineCandidates (steady : promise.Steady setting) (program : Program)
    (answered : promise.calm memory → let asked : Memory σ :=
        { memory with state := { memory.state with clauses := [], candidates := [] } }
      Yields setting promise (ask (·.refine memory.state.clauses memory.state.qualifiers
        program memory.state.candidates)) asked fun candidates after =>
          after.state = asked.state ∧
            promise.calm { after with state := { after.state with candidates } }) :
    Yields setting promise (refineCandidates program) memory fun _ after =>
      ∃ candidates, after.state = { memory.state with clauses := [], candidates } := by
  intro calm
  have answered := answered calm
  revert calm
  apply Yields.get_bind
  have taken : Yields setting promise
      (modifyState ({ · with clauses := [], candidates := [] })) memory fun _ after =>
        after = { memory with state := { memory.state with clauses := [], candidates := [] } } :=
    fun calm => ⟨steady.moved memory
      { memory.state with clauses := [], candidates := [] } rfl (List.nil_subset _) calm, rfl⟩
  apply taken.bind
  rintro _ _ rfl
  apply answered.bind
  rintro candidates after ⟨same, calm⟩
  split
  · exact Yields.fail rfl
  · exact fun _ => ⟨calm, candidates, congrArg ({ · with candidates }) same⟩

end Search

end Inhabit
