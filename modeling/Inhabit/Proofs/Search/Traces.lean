import Inhabit.Proofs.Search.Signatures

/-! What happens in the course of a search.

A trace tells the events of a run in order, and which of them belong to the branch that
the run ended in. An alternative that was given up has happened all the same, but is no
part of that branch. -/

namespace Inhabit

/-- What can be observed of a search. -/
inductive Event where
  | lowered (clause : HornClause)
  | pruned (space : QualifierSpace) (answer : Except Interrupt QualifierSpace)
  | refined (clauses : List HornClause) (qualifiers : QualifierMap) (program : Program)
      (candidates : List Candidate) (answer : Except Interrupt (List Candidate))
  | attempted
  /-- The search itself ended a branch, or all of them. -/
  | raised (interrupt : Interrupt)

/-! ## Names -/

def Naming.Advances (draw : Naming α) : Prop :=
  ∀ names, names.issued ≤ (draw.run names).2.issued

namespace Naming.Advances

theorem pure (value : α) : Naming.Advances (Pure.pure value) :=
  fun _ => le_rfl

theorem freshName (stem : String) : Naming.Advances (Inhabit.freshName stem) :=
  fun _ => Nat.le_succ _

theorem bind {draw : Naming α} {next : α → Naming β} (first : Naming.Advances draw)
    (second : ∀ value, Naming.Advances (next value)) : Naming.Advances (draw >>= next) :=
  fun names => (first names).trans (second _ _)

theorem mapM {draw : α → Naming β} (each : ∀ element, Naming.Advances (draw element))
    (elements : List α) : Naming.Advances (elements.mapM draw) := by
  induction elements with
  | nil => exact pure []
  | cons element rest induction =>
      rw [List.mapM_cons]
      exact (each element).bind fun _ => induction.bind fun _ => pure _

theorem instantiate (schema : Schema) : Naming.Advances schema.instantiate :=
  (mapM (fun _ => (freshName _).bind fun _ => pure _) _).bind fun _ => pure _

theorem recursiveCallsWithin (env : Environment) (strategy : FixpointStrategy)
    (count : Nat) (t : RefinedType) :
    Naming.Advances (Inhabit.recursiveCallsWithin env strategy count t) := by
  induction count generalizing t with
  | zero => exact pure []
  | succ count induction =>
      cases t with
      | scalar => exact pure []
      | function name argument result =>
          apply (freshName Stem.argument).bind
          intro formal
          apply (induction _).bind
          intro later
          dsimp only
          split
          · exact pure _
          · apply (freshName Stem.recursiveCall).bind
            intro call
            cases strategy <;> exact pure _

theorem recursiveScope (env : Environment) (parameters : Parameters) (t : RefinedType) :
    Naming.Advances (Inhabit.recursiveScope env parameters t) :=
  (recursiveCallsWithin env _ _ t).bind fun _ => pure _

end Naming.Advances

namespace Search

variable {σ : Type} {α β : Type}

/-! ## Events -/

def refinement (setting : Setting σ) (program : Program) (memory : Memory σ) :
    Except Interrupt (List Candidate) × σ :=
  (setting.solver.refine memory.state.clauses memory.state.qualifiers program
    memory.state.candidates).run memory.solver

/-- A step of a search and the event it is, if it is one. Only the steps that are events
touch the clauses and the candidates, and names are never given back. -/
inductive Step (setting : Setting σ) :
    {α : Type} → Search σ α → (Memory σ → List Event) → Prop where
  | pure {α : Type} (value : α) : Step setting (Pure.pure value) fun _ => []
  | get : Step setting MonadState.get fun _ => []
  | read : Step setting MonadReader.read fun _ => []
  | naming {α : Type} {draw : Naming α} (advances : Naming.Advances draw) :
      Step setting (naming draw) fun _ => []
  | change {change : SearchState → SearchState}
      (clauses : ∀ state, (change state).clauses = state.clauses)
      (candidates : ∀ state, (change state).candidates = state.candidates) :
      Step setting (modifyState change) fun _ => []
  | fail {α : Type} (failure : Failure) :
      Step setting (Search.fail failure : Search σ α) fun _ => [.raised (.failed failure)]
  | lower (clause : HornClause) :
      Step setting (modifyState (·.addClause clause)) fun _ => [.lowered clause]
  | simplify : Step setting (rewrite simplifyAll) fun memory =>
      match (rewrite simplifyAll setting memory).1 with
      | .ok _ => []
      | .error interrupt => [.raised interrupt]
  | prune (space : QualifierSpace) : Step setting (ask (·.prune space)) fun memory =>
      [.pruned space ((setting.solver.prune space).run memory.solver).1]
  | refine (program : Program) : Step setting (refineCandidates program) fun memory =>
      let answer := (refinement setting program memory).1
      .refined memory.state.clauses memory.state.qualifiers program
          memory.state.candidates answer ::
        match answer with
        | .ok [] => [.raised (.failed .unsatisfiable)]
        | _ => []

/-- A run of a search from a memory: the events of the branch it ended in, all events,
and how it ended. -/
inductive Trace (setting : Setting σ) : {α : Type} → Search σ α → Memory σ →
    (branch events : List Event) → Except Interrupt α × Memory σ → Prop where
  | step {α : Type} {run : Search σ α} {events : Memory σ → List Event}
      (step : Step setting run events) (memory : Memory σ) :
      Trace setting run memory (events memory) (events memory) (run setting memory)
  | stop {α β : Type} {run : Search σ α} {rest : α → Search σ β} {memory after : Memory σ}
      {branch events : List Event} {interrupt : Interrupt}
      (first : Trace setting run memory branch events (.error interrupt, after)) :
      Trace setting (run >>= rest) memory branch events (.error interrupt, after)
  | next {α β : Type} {run : Search σ α} {rest : α → Search σ β}
      {memory middle : Memory σ} {value : α} {branch events laterBranch laterEvents : List Event}
      {ended : Except Interrupt β × Memory σ}
      (first : Trace setting run memory branch events (.ok value, middle))
      (second : Trace setting (rest value) middle laterBranch laterEvents ended) :
      Trace setting (run >>= rest) memory (branch ++ laterBranch) (events ++ laterEvents) ended
  | exhausted {α β : Type} {failure : Failure} {attempt : α → Search σ β}
      {memory : Memory σ} :
      Trace setting (choose [] failure attempt) memory [.raised (.failed failure)]
        [.raised (.failed failure)] (.error (.failed failure), memory)
  | taken {α β : Type} {option : α} {rest : List α} {none : Failure}
      {attempt : α → Search σ β} {memory : Memory σ} {branch events : List Event}
      {ended : Except Interrupt β × Memory σ}
      (ran : Trace setting (attempt option) memory branch events ended)
      (final : ∀ interrupt, ended.1 = .error interrupt → interrupt.stops = true) :
      Trace setting (choose (option :: rest) none attempt) memory (.attempted :: branch)
        (.attempted :: events) ended
  | passed {α β : Type} {option : α} {rest : List α} {none failure : Failure}
      {attempt : α → Search σ β} {memory middle : Memory σ}
      {abandoned events branch laterEvents : List Event} {ended : Except Interrupt β × Memory σ}
      (ran : Trace setting (attempt option) memory abandoned events
        (.error (.failed failure), middle))
      (recoverable : failure.isFatal = false)
      (others : Trace setting (choose rest failure attempt)
        { middle with state := memory.state } branch laterEvents ended) :
      Trace setting (choose (option :: rest) none attempt) memory branch
        (.attempted :: events ++ laterEvents) ended

variable {setting : Setting σ} {run : Search σ α} {memory : Memory σ}
  {branch events : List Event} {ended : Except Interrupt α × Memory σ}

theorem Trace.run_eq (trace : Trace setting run memory branch events ended) :
    run setting memory = ended := by
  induction trace with
  | step => rfl
  | stop _ induction => rw [run_bind, induction]
  | next _ _ first second =>
      rw [run_bind, first]
      exact second
  | exhausted => rfl
  | @taken _ _ option rest none attempt memory _ _ ended _ final induction =>
      unfold Search.choose
      rw [induction]
      rcases ended with ⟨outcome, after⟩
      cases outcome with
      | ok _ => rfl
      | error interrupt =>
          cases interrupt with
          | trapped _ | unfinished => rfl
          | failed failure => exact if_pos (final _ rfl)
  | passed _ recoverable _ first second =>
      unfold Search.choose
      rw [first]
      dsimp only
      rw [recoverable]
      exact second

theorem run_refineCandidates (setting : Setting σ) (program : Program) (memory : Memory σ) :
    refineCandidates program setting memory =
      let taken := { memory.state with clauses := [], candidates := [] }
      match refinement setting program memory with
      | (.ok [], solver) =>
          (.error (.failed .unsatisfiable), { memory with state := taken, solver })
      | (.ok survivors, solver) =>
          (.ok (), { memory with state := { taken with candidates := survivors }, solver })
      | (.error interrupt, solver) =>
          (.error interrupt, { memory with state := taken, solver }) := by
  let taken := { memory.state with clauses := [], candidates := [] }
  have asks : refineCandidates program setting memory =
      ((do
        let candidates ← ask (·.refine memory.state.clauses memory.state.qualifiers program
          memory.state.candidates)
        if candidates.isEmpty then Search.fail .unsatisfiable
        else modifyState ({ · with candidates })) : Search σ Unit) setting
        { memory with state := taken } := rfl
  rw [asks, run_bind]
  unfold ask refinement
  rcases (setting.solver.refine memory.state.clauses memory.state.qualifiers program
    memory.state.candidates).run memory.solver with ⟨outcome, solver⟩
  match outcome with
  | .error interrupt => rfl
  | .ok [] => rfl
  | .ok (first :: rest) => rfl

theorem of_refineCandidates_ok {program : Program} {memory after : Memory σ}
    (ran : refineCandidates program setting memory = (.ok (), after)) :
    ∃ first rest, refinement setting program memory = (.ok (first :: rest), after.solver) ∧
      after = { memory with
        state := { memory.state with clauses := [], candidates := first :: rest }
        solver := after.solver } := by
  rw [run_refineCandidates] at ran
  rcases asked : refinement setting program memory with ⟨answer, solver⟩
  rw [asked] at ran
  match answer with
  | .error _ | .ok [] => cases ran
  | .ok (first :: rest) =>
      cases ran
      exact ⟨first, rest, rfl, rfl⟩

theorem Step.advances {events : Memory σ → List Event} (step : Step setting run events)
    (memory : Memory σ) : memory.names.issued ≤ (run setting memory).2.names.issued := by
  cases step with
  | pure | get | read | change | fail | lower | prune => exact le_rfl
  | naming advances => exact advances memory.names
  | simplify => exact (run_rewrite_simplifyAll_advances setting memory).1
  | refine program =>
      rw [run_refineCandidates]
      dsimp only
      split <;> exact le_rfl

theorem Trace.advances (trace : Trace setting run memory branch events ended) :
    memory.names.issued ≤ ended.2.names.issued := by
  induction trace with
  | step step memory => exact step.advances memory
  | stop _ induction => exact induction
  | exhausted => exact le_rfl
  | taken _ _ induction => exact induction
  | next _ _ first second | passed _ _ _ first second => exact first.trans second

/-! ## Runs without choice points -/

/-- The search makes steps one after the other, and no choice. -/
inductive Straight (setting : Setting σ) : {α : Type} → Search σ α → Prop where
  | step {α : Type} {run : Search σ α} {events : Memory σ → List Event}
      (step : Step setting run events) : Straight setting run
  | bind {α β : Type} {run : Search σ α} {rest : α → Search σ β}
      (first : Straight setting run) (second : ∀ value, Straight setting (rest value)) :
      Straight setting (run >>= rest)

namespace Straight

theorem exists_trace (straight : Straight setting run) (memory : Memory σ) :
    ∃ branch events, Trace setting run memory branch events (run setting memory) := by
  induction straight generalizing memory with
  | step step => exact ⟨_, _, .step step memory⟩
  | @bind _ _ run rest _ _ first second =>
      rcases first memory with ⟨branch, events, trace⟩
      rw [run_bind]
      cases ran : run setting memory with
      | mk outcome middle =>
          rw [ran] at trace
          cases outcome with
          | error interrupt => exact ⟨branch, events, .stop trace⟩
          | ok value =>
              rcases second value middle with ⟨_, _, later⟩
              exact ⟨_, _, .next trace later⟩

theorem trace_bind (straight : Straight setting run) {rest : α → Search σ β}
    {middle : Memory σ} {value : α} {ended : Except Interrupt β × Memory σ}
    (ran : run setting memory = (.ok value, middle))
    (second : Trace setting (rest value) middle branch events ended) :
    ∃ earlierBranch earlierEvents, Trace setting (run >>= rest) memory
      (earlierBranch ++ branch) (earlierEvents ++ events) ended := by
  rcases straight.exists_trace memory with ⟨earlierBranch, earlierEvents, first⟩
  rw [ran] at first
  exact ⟨_, _, .next first second⟩

theorem pure (value : α) : Straight setting (Pure.pure value) := .step (.pure value)

theorem fail (failure : Failure) : Straight setting (Search.fail failure : Search σ α) :=
  .step (.fail failure)

theorem get_bind {rest : Memory σ → Search σ β}
    (second : ∀ memory, Straight setting (rest memory)) :
    Straight setting (get >>= rest) :=
  .bind (.step .get) second

theorem read_bind {rest : Setting σ → Search σ β}
    (second : ∀ setting', Straight setting (rest setting')) :
    Straight setting (read >>= rest) :=
  .bind (.step .read) second

theorem naming {draw : Naming α} (advances : Naming.Advances draw) :
    Straight setting (Search.naming draw) :=
  .step (.naming advances)

theorem fresh (stem : String) : Straight setting (Search.fresh stem) :=
  naming (.freshName stem)

theorem applyAssignment (t : RefinedType) : Straight setting (Search.applyAssignment t) :=
  get_bind fun _ => pure _

theorem forM {body : α → Search σ Unit} (each : ∀ element, Straight setting (body element))
    (elements : List α) : Straight setting (elements.forM body) := by
  induction elements with
  | nil => exact pure ()
  | cons element rest induction => exact (each element).bind fun _ => induction

theorem mapM {body : α → Search σ β} (each : ∀ element, Straight setting (body element))
    (elements : List α) : Straight setting (elements.mapM body) := by
  induction elements with
  | nil => exact pure []
  | cons element rest induction =>
      rw [List.mapM_cons]
      exact (each element).bind fun _ => induction.bind fun _ => pure _

theorem forIn {body : α → β → Search σ (ForInStep β)}
    (each : ∀ element state, Straight setting (body element state)) (elements : List α)
    (start : β) : Straight setting (forIn elements start body) := by
  induction elements generalizing start with
  | nil => exact pure start
  | cons element rest induction =>
      rw [List.forIn_cons]
      apply (each element start).bind
      intro step
      cases step with
      | done result => exact pure result
      | yield next => exact induction next

theorem constrain (constraint : Constraint) : Straight setting (Search.constrain constraint) :=
  .step (.change (fun _ => rfl) fun _ => rfl)

theorem addQualifiers (unknown : String) (space : QualifierSpace) :
    Straight setting (Search.addQualifiers unknown space) :=
  .bind (.step (.prune space)) fun _ => .step (.change (fun _ => rfl) fun _ => rfl)

theorem lower (constraint : Constraint) : Straight setting (Search.lower constraint) := by
  apply get_bind
  intro memory
  dsimp only
  split
  · split
    · exact constrain _
    · split
      · split
        · split
          · exact pure ()
          · exact .step (.lower _)
        · exact fail _
      · exact fail _
  · exact (forIn (fun _ _ => read_bind fun _ => (addQualifiers _ _).bind fun _ => pure _) _
      _).bind fun _ => pure ()
  · split
    · exact pure ()
    · exact read_bind fun _ => addQualifiers _ _
  all_goals exact fail _

theorem lowerAll : Straight setting Search.lowerAll :=
  get_bind fun _ => bind (.step (.change (fun _ => rfl) fun _ => rfl)) fun _ => forM lower _

theorem solve (program : Program) : Straight setting (Search.solve program) :=
  bind (.step .simplify) fun _ => lowerAll.bind fun _ => .step (.refine program)

theorem solveIncrementally (program : Program) :
    Straight setting (Search.solveIncrementally program) := by
  apply read_bind
  intro other
  split
  · exact solve program
  · exact pure ()

theorem bindArguments (constructorName : String) (result : RefinedType)
    (parameters arguments : List RefinedType) :
    Straight setting (Search.bindArguments constructorName result parameters arguments) := by
  fun_induction Search.bindArguments constructorName result parameters arguments with
  | case1 name refinement parameters argument arguments induction =>
      exact bind (.step (.change (fun _ => rfl) fun _ => rfl)) fun _ => induction
  | case2 => exact fail _
  | case3 => exact pure ()

theorem matchConstructor (constructorName : String) (result scrutinee : RefinedType) :
    Straight setting (Search.matchConstructor constructorName result scrutinee) := by
  unfold Search.matchConstructor
  split
  · split
    · exact bindArguments _ _ _ _
    · exact fail _
  · exact fail _

theorem caseSignature (env : Environment) (constructorName : String)
    (scrutinee : RefinedType) :
    Straight setting (Search.caseSignature env constructorName scrutinee) := by
  unfold Search.caseSignature
  split
  · exact fail _
  · apply (naming (.instantiate _)).bind
    intro signature
    exact (matchConstructor _ _ _).bind fun _ => applyAssignment _

theorem nameScrutinee (env : Environment) (scrutinee : Program) :
    Straight setting (Search.nameScrutinee env scrutinee) := by
  have ghost (t : RefinedType) : Straight setting (do
      let name ← Search.fresh Stem.ghost
      return (env.addGhost name t, name) : Search σ (Environment × String)) :=
    (Straight.fresh _).bind fun _ => pure _
  cases scrutinee with
  | symbol name t =>
      unfold Search.nameScrutinee
      dsimp only
      split
      · exact ghost t
      · exact pure _
  | _ => exact ghost _

end Straight

/-- A solve step that ends well has refined the candidates at last. -/
theorem exists_trace_solve {program : Program} {after : Memory σ}
    (ran : solve program setting memory = (.ok (), after)) :
    ∃ earlier events clauses candidates, Trace setting (solve program) memory
      (earlier ++ [.refined clauses after.state.qualifiers program candidates
        (.ok after.state.candidates)]) events (.ok (), after) := by
  rcases exists_of_bind_ok ran with ⟨_, simplified, simplifies, ran⟩
  rcases exists_of_bind_ok ran with ⟨_, lowered, lowers, refines⟩
  rcases of_refineCandidates_ok refines with ⟨first, rest, asked, equal⟩
  let last : Event := .refined lowered.state.clauses after.state.qualifiers program
    lowered.state.candidates (.ok after.state.candidates)
  have answered : last = .refined lowered.state.clauses lowered.state.qualifiers program
      lowered.state.candidates (.ok (first :: rest)) := by
    unfold last
    rw [equal]
  have refined : Trace setting (refineCandidates program) lowered [last] [last]
      (.ok (), after) := by
    have step := @Trace.step _ setting _ _ _ (.refine program) lowered
    dsimp only at step
    rw [refines, asked] at step
    rw [answered]
    exact step
  have second : ∃ branch events, Trace setting
      (do lowerAll; refineCandidates program) simplified (branch ++ [last])
      (events ++ [last]) (.ok (), after) :=
    Straight.lowerAll.trace_bind lowers refined
  rcases second with ⟨branch, events, second⟩
  have whole : ∃ earlier earlierEvents, Trace setting (solve program) memory
      (earlier ++ (branch ++ [last])) (earlierEvents ++ (events ++ [last])) (.ok (), after) :=
    Straight.trace_bind (.step .simplify) simplifies second
  rcases whole with ⟨earlier, earlierEvents, whole⟩
  rw [← List.append_assoc] at whole
  exact ⟨earlier ++ branch, _, _, _, whole⟩

end Search

end Inhabit
