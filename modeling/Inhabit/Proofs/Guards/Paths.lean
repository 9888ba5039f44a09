import Inhabit.Proofs.Guards.Scopes

/-! What the guards of a program speak of.

A guard is confined to the scope that it is drawn in, and stays so to the end of the
path. The scope has the names that the program binds on the way, and the ghosts of the
matches that it stands in. -/

namespace Inhabit

namespace Search

variable {σ : Type} {setting : Setting σ} {isConstant : String → Bool}
  {bound : String → Prop} {memory after : Memory σ}

/-! ## Terms -/

/-- A term has no guards, and its scope has at most one ghost for each application. -/
structure TermWithin (isConstant : String → Bool) (bound : String → Prop)
    (program : Program) (env : Environment) : Prop where
  free : program.type.GuardFree
  guards : ∀ onGuard names, program.GuardsWithin (Program.ghostCount isConstant) onGuard names
  scope : env.WithGhosts isConstant bound program.applications

theorem TermWithin.applies {env functionEnv finalEnv : Environment}
    {function argument program : Program} {formal : String} {expected result : RefinedType}
    (first : TermWithin isConstant bound function functionEnv)
    (applied : function.type = .function formal expected result)
    (second : ∀ bound, functionEnv.Within isConstant bound →
      TermWithin isConstant bound argument env)
    (applies : Applies env function argument formal expected result memory finalEnv program
      after) : memory.Onward after ∧ TermWithin isConstant bound program finalEnv := by
  -- The ghosts that the function has brought are in scope for its argument.
  have both := first.scope.trans fun bound within => (second bound within).scope
  have free := first.free
  rw [applied, RefinedType.guardFree_function] at free
  rcases first.scope with ⟨_, _, _, within⟩
  have guards (type : RefinedType) (onGuard : (String → Prop) → Formula → Prop)
      (names : String → Prop) :
      (Program.app function argument type).GuardsWithin (Program.ghostCount isConstant)
        onGuard names :=
    ⟨first.guards onGuard names, (second _ within).guards onGuard names⟩
  cases applies with
  | functional =>
      exact ⟨.of_resumed (.refl _), free.2, guards _, both.mono (Nat.le_succ _)⟩
  | scalar _ named =>
      subst named
      exact ⟨.draws _ (Nat.le_succ _), free.2.renameVar formal _ expected, guards _,
        both.addGhost _ argument.type⟩

variable (chooses : setting.solver.ChoosesProposed) (isLocal : setting.sources.Local)

include chooses isLocal

theorem TermPath.within {depth : Nat} {env finalEnv : Environment} {shape : Shape}
    {program : Program} (path : TermPath setting depth env shape memory finalEnv program after)
    (scope : env.Within isConstant bound) :
    memory.Onward after ∧ TermWithin isConstant bound program finalEnv := by
  induction path generalizing bound with
  | @symbol _ env _ memory start after name schema type names resumed listed instantiated
      checked =>
      have drawn : names = (schema.instantiate.run start.names).2 := by rw [instantiated]
      have equal : type = (schema.instantiate.run start.names).1 := by rw [instantiated]
      have advances : start.names.issued ≤ names.issued :=
        drawn ▸ Naming.Advances.instantiate schema start.names
      have free := Schema.guardFree_instantiate (scope.free _ _ listed) start.names
      rw [← equal] at free
      refine ⟨(Memory.Onward.of_resumed resumed).trans
        ((Memory.Onward.draws start advances).trans
          (onward_checks chooses isLocal checked)), ?_⟩
      exact ⟨guardFree_symbolType env name free, fun _ _ => trivial, [], le_rfl,
        List.forall_mem_nil _, scope.mono fun _ => .inr⟩
  | application resumed _ _ applied _ checked applies first second =>
      rcases first scope with ⟨early, function⟩
      rcases function.scope with ⟨_, _, _, within⟩
      have start := (Memory.Onward.of_resumed resumed).trans
        ((Memory.Onward.draws _ (Nat.le_add_right _ 2)).trans early)
      rcases function.applies applied (fun _ within => (second within).2) applies with
        ⟨last, program⟩
      have checks := onward_checks chooses isLocal checked
      exact ⟨((start.trans (second within).1).trans checks).trans last, program⟩

omit chooses isLocal in
theorem withGhosts_nameScrutinee {env caseEnv : Environment} {scrutinee : Program}
    {subject : String} (term : TermWithin isConstant bound scrutinee env)
    (ran : nameScrutinee env scrutinee setting memory = (.ok (caseEnv, subject), after)) :
    memory.Onward after ∧
      caseEnv.WithGhosts isConstant bound (scrutinee.ghostCount isConstant) := by
  have ghost (count : scrutinee.ghostCount isConstant = scrutinee.applications + 1)
      (ran : (do
        let name ← fresh Stem.ghost
        return (env.addGhost name scrutinee.type, name) : Search σ (Environment × String))
          setting memory = (.ok (caseEnv, subject), after)) :
      memory.Onward after ∧
        caseEnv.WithGhosts isConstant bound (scrutinee.ghostCount isConstant) := by
    cases ran
    exact ⟨.draws _ (Nat.le_succ _), count ▸ term.scope.addGhost _ scrutinee.type⟩
  cases scrutinee with
  | symbol name type =>
      unfold nameScrutinee at ran
      dsimp only at ran
      split at ran
      · rename_i constant
        rcases term.scope with ⟨_, _, _, within⟩
        rw [within.constants] at constant
        exact ghost (if_pos constant) ran
      · cases ran
        exact ⟨.of_resumed (.refl _), term.scope.mono (Nat.zero_le _)⟩
  | _ => exact ghost rfl ran

/-! ## Bodies -/

omit chooses isLocal in
/-- On the way from one memory to another, guards stay confined, and those of the program
come to be. -/
def ConfinesBody (isConstant : String → Bool) (env : Environment) (type : RefinedType)
    (memory : Memory σ) (program : Program) (after : Memory σ) : Prop :=
  ∀ bound, env.Within isConstant bound → type.GuardFree → memory.Orderly →
    memory.Onward after ∧
      program.GuardsWithin (Program.ghostCount isConstant) after.Confines bound

omit chooses isLocal in
def ConfinesCases (isConstant : String → Bool) (env : Environment)
    (scrutinee type : RefinedType) (memory : Memory σ) (cases : List (Case Program))
    (after : Memory σ) : Prop :=
  ∀ bound, env.Within isConstant bound → scrutinee.GuardFree → type.GuardFree →
    memory.Orderly →
      memory.Onward after ∧
        Program.GuardsWithinCases (Program.ghostCount isConstant) after.Confines bound cases

variable {env termEnv : Environment} {type : RefinedType} {start middle : Memory σ}

theorem confinesBody_guess {depth : Nat} {program : Program} (resumed : memory.Resumed start)
    (term : TermPath setting depth env type.shape start termEnv program middle)
    (checked : Checks setting termEnv program.type type program middle after) :
    ConfinesBody isConstant env type memory (program.withType type) after := by
  intro bound scope _ _
  rcases term.within chooses isLocal scope with ⟨onward, found⟩
  have checks := onward_checks chooses isLocal checked
  exact ⟨((Memory.Onward.of_resumed resumed).trans onward).trans checks,
    (found.guards _ _).withType type⟩

omit chooses isLocal

theorem confinesBody_lambda {name : String} {argument result : RefinedType} {body : Program}
    (inner : ConfinesBody isConstant (env.addVariable name argument) result memory body
      after) :
    ConfinesBody isConstant env (.function name argument result) memory
      (.lambda name body (.function name argument result)) after := by
  intro bound scope free orderly
  rcases RefinedType.guardFree_function.mp free with ⟨freeArgument, freeResult⟩
  exact inner _ (scope.addVariable name freeArgument) freeResult orderly

theorem confinesBody_conditional {guard : Formula} {thenBranch elseBranch : Program}
    (resumed : memory.Resumed start)
    (unknown : guard = .unknown [] (Stem.guard ++ toString start.names.issued))
    (first : ConfinesBody isConstant (env.assume guard) type
      { start with
        names := ⟨start.names.issued + 1⟩
        state := start.state.addPending [.wellFormedGuard env guard] } thenBranch middle)
    (second : ConfinesBody isConstant (env.refute guard) type middle elseBranch after) :
    ConfinesBody isConstant env type memory (.ite guard thenBranch elseBranch type)
      after := by
  intro bound scope free orderly
  subst unknown
  have early := Memory.Onward.of_resumed resumed
  rcases (orderly.onward early).draw env with ⟨drawn, confined⟩
  have orderlyDrawn := (orderly.onward early).onward drawn
  rcases first bound (scope.assume _) free orderlyDrawn with ⟨onwardThen, thenGuards⟩
  rcases second bound (scope.refute _) free (orderlyDrawn.onward onwardThen) with
    ⟨onwardElse, elseGuards⟩
  have onward := onwardThen.trans onwardElse
  exact ⟨(early.trans drawn).trans onward, (confined.mono scope.names).onward onward,
    thenGuards.mono fun _ _ confined => confined.onward onwardElse, elseGuards⟩

theorem confinesCases_cons {subject constructorName : String}
    {scrutinee signature : RefinedType} {binders : List String} {signed drawn : Memory σ}
    {body : Program} {cases : List (Case Program)}
    (signs : caseSignature env constructorName scrutinee setting memory =
      (.ok signature, signed))
    (binds : (List.replicate signature.arity Stem.caseBinder).mapM fresh setting signed =
      (.ok binders, drawn))
    (first : ConfinesBody isConstant
      (((caseBindings binders signature).foldl
        (fun env binding => env.addVariable binding.1 binding.2) env).assume
          (Environment.factAbout subject scrutinee)) type drawn body middle)
    (rest : ConfinesCases isConstant env scrutinee type middle cases after) :
    ConfinesCases isConstant env scrutinee type memory
      ({ constructorName, binders, body } :: cases) after := by
  intro bound scope known free orderly
  rcases onward_caseSignature signs orderly scope.free known with ⟨onwardSigned, freeSignature⟩
  have onwardDrawn := onward_of_state_eq (Straight.mapM (fun stem => Straight.fresh stem) _)
    binds ((Yields.freshAll _ _).of_ok binds).1
  have early := onwardSigned.trans onwardDrawn
  rcases first _ ((scope.addBindings binders freeSignature).assume _) free
    (orderly.onward early) with ⟨onwardBody, guards⟩
  have middle := early.trans onwardBody
  rcases rest bound scope known free (orderly.onward middle) with ⟨onwardRest, others⟩
  exact ⟨middle.trans onwardRest, guards.mono fun _ _ confined => confined.onward onwardRest,
    others⟩

include chooses isLocal

theorem confinesBody_caseOf {caseEnv : Environment} {known : RefinedType}
    {drawn named : Memory σ} {shape : Shape} {subject : String} {parameters : List String}
    {typeVars : List Shape} {scrutinee : Program} {cases : List (Case Program)} {depth : Nat}
    (resumed : memory.Resumed start)
    (draws : (parameters.mapM fun _ => do
      return Skeleton.atom (.typeVar (← fresh Stem.typeVar)) () : Search σ (List Shape))
        setting start = (.ok typeVars, drawn))
    (term : TermPath setting depth env shape drawn termEnv scrutinee middle)
    (resolved : known = middle.state.assignment.apply scrutinee.type)
    (names : nameScrutinee termEnv scrutinee setting middle =
      (.ok (caseEnv, subject), named))
    (each : ConfinesCases isConstant caseEnv known type named cases after) :
    ConfinesBody isConstant env type memory (.caseOf (scrutinee.withType known) cases type)
      after := by
  intro bound scope free orderly
  have drawing : Yields setting silent (parameters.mapM fun _ => do
      return Skeleton.atom (.typeVar (← fresh Stem.typeVar)) ()) start fun typeVars after =>
        after.state = start.state ∧ typeVars.length = parameters.length ∧
          ∀ typeVar ∈ typeVars, True :=
    Yields.mapM fun _ _ _ same calm => ⟨calm, same, trivial⟩
  have onwardDrawn := onward_of_state_eq
    (Straight.mapM (fun _ => (Straight.fresh _).bind fun _ => .pure _) _) draws
    (drawing.of_ok draws).1
  rcases term.within chooses isLocal scope with ⟨onwardTerm, found⟩
  rcases withGhosts_nameScrutinee found names with ⟨naming, ghosts, few, areGhosts, within⟩
  have early := ((Memory.Onward.of_resumed resumed).trans onwardDrawn).trans onwardTerm
  have freeKnown := (orderly.onward early).assignment.apply found.free
  rw [← resolved] at freeKnown
  have middle := early.trans naming
  rcases each _ within freeKnown free (orderly.onward middle) with ⟨onward, guards⟩
  refine ⟨middle.trans onward, (found.guards _ _).withType known, ghosts, ?_, areGhosts,
    guards⟩
  rwa [Program.ghostCount_withType]

theorem BodyPath.confines {guessDepth conditional matching : Nat} {program : Program}
    (path : BodyPath setting guessDepth conditional matching env type memory program after) :
    ConfinesBody isConstant env type memory program after :=
  -- The paths of bodies and those of cases are one family, so both are claimed at once.
  @BodyPath.rec σ setting guessDepth
    (fun _ _ env type memory program after _ =>
      ConfinesBody isConstant env type memory program after)
    (fun _ _ env _ scrutinee type _ memory cases after _ =>
      ConfinesCases isConstant env scrutinee type memory cases after)
    (fun resumed _ term checked => confinesBody_guess chooses isLocal resumed term checked)
    (fun _ inner => confinesBody_lambda inner)
    (fun resumed _ unknown _ _ first second =>
      confinesBody_conditional resumed unknown first second)
    (fun resumed _ _ draws term resolved _ names _ each =>
      confinesBody_caseOf chooses isLocal resumed draws term resolved names each)
    (fun _ _ _ _ _ => ⟨.of_resumed (.refl _), trivial⟩)
    (fun signs binds _ _ first rest => confinesCases_cons signs binds first rest)
    conditional matching env type memory program after path

theorem GoalPath.confines {depth : Depth} {schema : Schema} {program : Program}
    (path : GoalPath setting depth env schema memory program after)
    (scope : env.Within isConstant bound) (free : schema.body.GuardFree)
    (orderly : memory.Orderly) :
    memory.Onward after ∧
      program.GuardsWithin (Program.ghostCount isConstant) after.Confines bound := by
  induction path with
  | forAll _ induction => exact induction (scope.addTypeVar _) free orderly
  | scalar _ inner => exact inner.confines chooses isLocal bound scope free orderly
  | @function env _ type memory _ _ calls body _ recursion inner =>
      have advances := Naming.Advances.recursiveScope env setting.parameters type memory.names
      have within : Environment.Within isConstant bound
          ((recursiveScope env setting.parameters type).run memory.names).1.1 :=
        scope.recursiveScope setting.parameters free memory.names
      rw [recursion] at advances within
      have draws := Memory.Onward.draws memory advances
      rcases inner.confines chooses isLocal bound within free (orderly.onward draws) with
        ⟨onward, guards⟩
      refine ⟨draws.trans onward, ?_⟩
      split <;> exact guards

end Search

end Inhabit
