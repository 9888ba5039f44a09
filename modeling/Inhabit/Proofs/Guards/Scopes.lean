import Inhabit.Proofs.Guards.Programs
import Inhabit.Proofs.Guards.Spaces
import Inhabit.Proofs.Search.Paths

/-! Which names a scope has, and what becomes of a guard that is confined to some of
them while the search goes on. -/

namespace Inhabit

/-! ## Scopes -/

structure Environment.Within (isConstant : String → Bool) (bound : String → Prop)
    (env : Environment) : Prop where
  free : env.GuardFree
  constants : env.isConstant = isConstant
  names : ∀ name, env.Names name → bound name

namespace Environment.Within

variable {isConstant : String → Bool} {bound wider : String → Prop} {env : Environment}

theorem mono (within : env.Within isConstant bound)
    (widens : ∀ name, bound name → wider name) : env.Within isConstant wider where
  free := within.free
  constants := within.constants
  names name named := widens name (within.names name named)

theorem addVariable (within : env.Within isConstant bound) (name : String)
    {type : RefinedType} (free : type.GuardFree) :
    (env.addVariable name type).Within isConstant fun other => other = name ∨ bound other where
  free := within.free.addVariable name free
  constants := within.constants
  names other named := (names_addVariable named).imp_right (within.names other)

theorem addGhost (within : env.Within isConstant bound) (ghost : String)
    (type : RefinedType) :
    (env.addGhost ghost type).Within isConstant fun other => other = ghost ∨ bound other where
  free := within.free
  constants := within.constants
  names other named := (names_addGhost named).imp_right (within.names other)

theorem assume (within : env.Within isConstant bound) (formula : Formula) :
    (env.assume formula).Within isConstant bound where
  free := within.free.assume formula
  constants := by
    rw [← within.constants]
    unfold Environment.assume
    split <;> rfl
  names := by
    rw [names_assume]
    exact within.names

theorem refute (within : env.Within isConstant bound) (formula : Formula) :
    (env.refute formula).Within isConstant bound where
  free := within.free.refute formula
  constants := by
    rw [← within.constants]
    unfold Environment.refute
    split <;> rfl
  names := by
    rw [names_refute]
    exact within.names

theorem addTypeVar (within : env.Within isConstant bound) (name : String) :
    (env.addTypeVar name).Within isConstant bound where
  free := within.free.addTypeVar name
  constants := by
    rw [← within.constants]
    unfold Environment.addTypeVar
    split <;> rfl
  names := by
    rw [names_addTypeVar]
    exact within.names

/-- Recursive calls are functions, of which qualifiers do not speak. -/
theorem addCalls (within : env.Within isConstant bound) (typeVars : List String)
    {calls : List (String × RefinedType)} (each : ∀ call ∈ calls, IsCall call.2) :
    (calls.foldl (fun env call => env.addSymbol call.1 (.generalize typeVars call.2))
      env).Within isConstant bound := by
  induction calls generalizing env with
  | nil => exact within
  | cons call rest induction =>
      rcases List.forall_mem_cons.mp each with ⟨first, others⟩
      apply induction _ others
      refine ⟨?_, within.constants, ?_⟩
      · apply within.free.addSymbol
        rw [Schema.body_generalize]
        exact first.free
      · rintro name ⟨type, inSymbols | inGhosts⟩
        · rw [symbolsOfArity_addSymbol, if_neg] at inSymbols
          · exact within.names name ⟨type, .inl inSymbols⟩
          · rw [Schema.arity, Schema.body_generalize]
            cases isFunction : call.2 with
            | scalar base arguments refinement =>
                cases isFunction ▸ first.isFunction
            | function => exact (Nat.succ_ne_zero _).symm
        · exact within.names name ⟨type, .inr inGhosts⟩

theorem recursiveScope (within : env.Within isConstant bound) (parameters : Parameters)
    {t : RefinedType} (free : t.GuardFree) (supply : NameSupply) :
    ((Inhabit.recursiveScope env parameters t).run supply).1.1.Within isConstant bound :=
  within.addCalls _
    (isCall_recursiveCallsWithin env parameters.fixpoints t.arity free supply)

theorem addBindings (within : env.Within isConstant bound) (binders : List String)
    {signature : RefinedType} (free : signature.GuardFree) :
    ((Search.caseBindings binders signature).foldl
      (fun env binding => env.addVariable binding.1 binding.2) env).Within isConstant
        fun name => name ∈ binders ∨ bound name := by
  induction binders generalizing env bound signature with
  | nil => exact within.mono fun _ => .inr
  | cons binder rest induction =>
      cases signature with
      | scalar => exact within.mono fun _ => .inr
      | function parameter argument result =>
          rcases RefinedType.guardFree_function.mp free with ⟨first, second⟩
          apply (induction (within.addVariable binder first)
            (second.renameVar parameter binder argument)).mono
          rintro name (later | rfl | old)
          · exact .inl (List.mem_cons_of_mem _ later)
          · exact .inl List.mem_cons_self
          · exact .inr old

end Environment.Within

def Environment.WithGhosts (isConstant : String → Bool) (bound : String → Prop)
    (count : Nat) (env : Environment) : Prop :=
  ∃ ghosts : List String, ghosts.length ≤ count ∧ (∀ ghost ∈ ghosts, IsGhost ghost) ∧
    env.Within isConstant fun name => name ∈ ghosts ∨ bound name

namespace Environment.WithGhosts

variable {isConstant : String → Bool} {bound : String → Prop} {count more : Nat}
  {env : Environment}

theorem mono (within : env.WithGhosts isConstant bound count) (most : count ≤ more) :
    env.WithGhosts isConstant bound more := by
  rcases within with ⟨ghosts, few, areGhosts, within⟩
  exact ⟨ghosts, few.trans most, areGhosts, within⟩

theorem addGhost (within : env.WithGhosts isConstant bound count) (number : Nat)
    (type : RefinedType) :
    (env.addGhost (Stem.ghost ++ toString number) type).WithGhosts isConstant bound
      (count + 1) := by
  rcases within with ⟨ghosts, few, areGhosts, within⟩
  refine ⟨(Stem.ghost ++ toString number) :: ghosts, Nat.succ_le_succ few,
    List.forall_mem_cons.mpr ⟨⟨number, rfl⟩, areGhosts⟩, ?_⟩
  apply (within.addGhost (Stem.ghost ++ toString number) type).mono
  intro name
  rw [List.mem_cons, or_assoc]
  exact id

theorem trans {outer : Environment} (first : outer.WithGhosts isConstant bound count)
    (second : ∀ bound, outer.Within isConstant bound →
      env.WithGhosts isConstant bound more) :
    env.WithGhosts isConstant bound (count + more) := by
  rcases first with ⟨early, fewEarly, earlyGhosts, within⟩
  rcases second _ within with ⟨late, fewLate, lateGhosts, within⟩
  refine ⟨late ++ early, ?_, List.forall_mem_append.mpr ⟨lateGhosts, earlyGhosts⟩, ?_⟩
  · rw [List.length_append]
    omega
  · apply within.mono
    intro name
    rw [List.mem_append, or_assoc]
    exact id

end Environment.WithGhosts

/-! ## Memories -/

theorem SearchState.Confines.mono {state : SearchState} {names wider : String → Prop}
    {guard : String} (confined : state.Confines names guard)
    (widens : ∀ name, names name → wider name) : state.Confines wider guard where
  orderly := by
    have weaker (constraint : Constraint)
        (orderly : constraint.Orderly (DrawnWithin names guard)) :
        constraint.Orderly (DrawnWithin wider guard) := by
      cases constraint with
      | subtype => trivial
      | wellFormed => exact orderly
      | wellFormedGuard => exact fun about name named => widens name (orderly about name named)
    exact ⟨confined.orderly.assignment,
      fun constraint member => weaker constraint (confined.orderly.pending constraint member),
      fun constraint member => weaker constraint (confined.orderly.simple constraint member)⟩
  space recorded found qualifier member name occurs :=
    widens name (confined.space recorded found qualifier member name occurs)
  chosen candidate member qualifier isChosen name occurs :=
    widens name (confined.chosen candidate member qualifier isChosen name occurs)

namespace Memory

variable {σ : Type}

/-- A guard stays confined, unless it was drawn in between. -/
structure Onward (before after : Memory σ) : Prop where
  advances : before.names.issued ≤ after.names.issued
  confines : ∀ number names, number < before.names.issued ∨ after.names.issued ≤ number →
    before.state.Confines names (guardName number) →
      after.state.Confines names (guardName number)

/-- Nothing is known of the guards that are still to be drawn. -/
def Orderly (memory : Memory σ) : Prop :=
  ∀ number, memory.names.issued ≤ number →
    memory.state.Confines (fun _ => False) (guardName number)

def Confines (memory : Memory σ) (bound : String → Prop) (guard : Formula) : Prop :=
  ∃ number, number < memory.names.issued ∧ guard = .unknown [] (guardName number) ∧
    memory.state.Confines bound (guardName number)

theorem orderly_start {setting : Setting σ} (chooses : setting.solver.ChoosesProposed)
    (solver : σ) : (setting.start solver).Orderly := fun number _ =>
  { orderly := ⟨nofun, List.forall_mem_nil _, List.forall_mem_nil _⟩
    space := nofun
    chosen := List.forall_mem_singleton.mpr fun qualifier member =>
      absurd member (chooses.initial (guardName number) qualifier) }

variable {before middle after : Memory σ}

theorem Onward.trans (early : before.Onward middle) (late : middle.Onward after) :
    before.Onward after where
  advances := early.advances.trans late.advances
  confines number names apart confined := by
    have first := apart.imp_right late.advances.trans
    have second := apart.imp_left fun drawn => Nat.lt_of_lt_of_le drawn early.advances
    exact late.confines number names second (early.confines number names first confined)

theorem Onward.of_resumed (resumed : before.Resumed after) : before.Onward after where
  advances := resumed.advances
  confines _ _ _ confined := resumed.state ▸ confined

theorem Onward.draws (memory : Memory σ) {names : NameSupply}
    (advances : memory.names.issued ≤ names.issued) : memory.Onward { memory with names } :=
  .of_resumed ⟨rfl, advances⟩

theorem Orderly.onward (orderly : before.Orderly) (onward : before.Onward after) :
    after.Orderly := fun number later =>
  onward.confines number _ (.inr later) (orderly number (onward.advances.trans later))

theorem Orderly.assignment (orderly : before.Orderly) : before.state.assignment.GuardFree :=
  (orderly _ le_rfl).orderly.assignment

theorem Confines.mono {bound wider : String → Prop} {guard : Formula}
    (confined : before.Confines bound guard) (widens : ∀ name, bound name → wider name) :
    before.Confines wider guard := by
  rcases confined with ⟨number, drawn, equal, confined⟩
  exact ⟨number, drawn, equal, SearchState.Confines.mono confined widens⟩

theorem Confines.onward {bound : String → Prop} {guard : Formula}
    (confined : before.Confines bound guard) (onward : before.Onward after) :
    after.Confines bound guard := by
  rcases confined with ⟨number, drawn, equal, confined⟩
  exact ⟨number, Nat.lt_of_lt_of_le drawn onward.advances, equal,
    onward.confines number bound (.inl drawn) confined⟩

theorem Orderly.draw (orderly : before.Orderly) (env : Environment) :
    let guard := Formula.unknown [] (guardName before.names.issued)
    let drawn : Memory σ :=
      { before with
        names := ⟨before.names.issued + 1⟩
        state := before.state.addPending [.wellFormedGuard env guard] }
    before.Onward drawn ∧ drawn.Confines env.Names guard := by
  -- The new constraint only matters to the guard that it is about.
  have added {names : String → Prop} {number : Nat}
      (confined : before.state.Confines names (guardName number))
      (inScope : before.names.issued = number → ∀ name, env.Names name → names name) :
      (before.state.addPending [.wellFormedGuard env
        (.unknown [] (guardName before.names.issued))]).Confines names (guardName number) := by
    apply confined.addPending
    rintro ⟨_, same⟩
    exact inScope (guardName_injective (Formula.unknown.inj same).2)
  refine ⟨⟨Nat.le_succ _, ?_⟩, before.names.issued, Nat.lt_succ_self _, rfl, ?_⟩
  · intro number names apart confined
    apply added confined
    rintro rfl
    rcases apart with early | late
    · exact absurd early (lt_irrefl _)
    · exact absurd late (Nat.not_succ_le_self _)
  · exact added ((orderly _ le_rfl).mono fun _ => False.elim) fun _ _ => id

end Memory

namespace Search

variable {σ : Type} {setting : Setting σ} {memory after : Memory σ}

/-! ## Runs that end well -/

/-- Nothing is promised, so that only the result of a run is told. -/
def silent : Promise σ where
  calm _ := True
  stopped _ _ := True
  renamed _ _ := id
  resumed _ _ _ := id

theorem steady_silent : silent.Steady setting where
  moved _ _ _ _ := id
  unfinished _ := id
  recorded _ _ _ _ _ := yields_addQualifiers <| Yields.ask
    (fun _ _ _ calm => ⟨calm, rfl, calm⟩) fun _ _ _ calm => ⟨fun _ => calm, fun _ => calm⟩

theorem Yields.of_ok {α : Type} {run : Search σ α} {result : α → Memory σ → Prop} {value : α}
    (yields : Yields setting silent run memory result)
    (ran : run setting memory = (.ok value, after)) : result value after := by
  have ended := yields trivial
  rw [ran] at ended
  exact ended.2

theorem Straight.advances {α : Type} {run : Search σ α} {value : Except Interrupt α}
    (straight : Straight setting run) (ran : run setting memory = (value, after)) :
    memory.names.issued ≤ after.names.issued := by
  rcases straight.exists_trace memory with ⟨_, _, trace⟩
  have advances := trace.advances
  rwa [ran] at advances

theorem onward_of_state_eq {α : Type} {run : Search σ α} {value : Except Interrupt α}
    (straight : Straight setting run) (ran : run setting memory = (value, after))
    (same : after.state = memory.state) : memory.Onward after :=
  .of_resumed ⟨same, straight.advances ran⟩

theorem onward_checks (chooses : setting.solver.ChoosesProposed)
    (isLocal : setting.sources.Local) {env : Environment} {left right : RefinedType}
    {program : Program} (checked : Checks setting env left right program memory after) :
    memory.Onward after where
  advances := by
    have advances := (Straight.solveIncrementally program).advances checked
    exact advances
  confines number names _ confined := by
    have afterConstraining : (memory.state.addPending [.subtype env left right]).Confines names
        (guardName number) := confined.addPending trivial
    rcases exists_of_bind_ok checked with ⟨_, _, read, ran⟩
    cases read
    split at ran
    · exact confined_solve chooses isLocal ran afterConstraining
    · cases ran
      exact afterConstraining

theorem onward_caseSignature {env : Environment} {constructorName : String}
    {scrutinee signature : RefinedType}
    (ran : caseSignature env constructorName scrutinee setting memory = (.ok signature, after))
    (orderly : memory.Orderly) (scope : env.GuardFree) (free : scrutinee.GuardFree) :
    memory.Onward after ∧ signature.GuardFree := by
  have missing : (silent : Promise σ).AllowsMissing constructorName := fun _ _ calm => calm
  have yields : Yields setting silent (caseSignature env constructorName scrutinee) memory
      fun signature after => ∃ assignment schema, ∃ names : NameSupply,
        env.lookup? constructorName = some schema ∧
          after.state = { memory.state with assignment } ∧
            TypeAssignment.GuardFree assignment ∧
              signature = TypeAssignment.apply assignment (schema.instantiate.run names).1 := by
    apply yields_caseSignature steady_silent _ (.inr missing) orderly.assignment
    rintro base arguments refinement rfl assignment name argument inside assigned
    exact assigned.insert name ((RefinedType.guardFree_scalar.mp free).2 argument inside)
  rcases yields.of_ok ran with ⟨assignment, schema, names, found, equal, assigned, rfl⟩
  rcases Environment.mem_symbolsOfArity_of_lookup? found with ⟨arity, listed⟩
  refine ⟨⟨(Straight.caseSignature env constructorName scrutinee).advances ran, ?_⟩,
    assigned.apply (Schema.guardFree_instantiate (scope arity _ listed) names)⟩
  intro number names _ confined
  rw [equal]
  exact ⟨⟨assigned, confined.orderly.pending, confined.orderly.simple⟩, confined.space,
    confined.chosen⟩

end Search

end Inhabit
