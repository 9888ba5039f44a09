import Inhabit.Proofs.Simplification.Termination

/-! How many passes simplification takes.

The variables that the constraints mention do not bound the passes: every copy that
a variable is bound to brings new ones, and a chain of variables has copies of copies
related. A substitution that solves the constraints does, by the sizes that the
variables come to have. -/

namespace Inhabit

namespace Prospect

variable {rigid : String → Prop} {strict : Prop}

structure Completes (prospect : Prospect rigid strict) (before : Workspace)
    (next : Prospect rigid strict) (passes : Nat) (result : Except Failure Unit)
    (after : Workspace) : Prop where
  simplifies : Simplifies before passes result after
  leads : prospect.Leads before next after
  admits : next.Admits after
  passes_le : passes ≤ prospect.potential + 1
  succeeds : strict → result = .ok ()
  equates : result = .ok () → ∃ added,
    after.state.simple = before.state.simple ++ added ∧
    ∀ constraint ∈ added, ∀ first second,
      constraint.variablePair? = some (first, second) →
        next.unifier first = next.unifier second

theorem exists_completes (prospect : Prospect rigid strict) (before : Workspace)
    (admits : prospect.Admits before)
    (fits : ∀ constraint ∈ before.state.pending, prospect.Fits before constraint) :
    ∃ next passes result after, prospect.Completes before next passes result after := by
  have clear : prospect.Leads before prospect before.clearPending :=
    .of_same prospect rfl rfl
  obtain ⟨next, result, middle, ends⟩ := exists_ends prospect before.clearPending
    before.state.pending (admits.congr rfl rfl)
    fun constraint member => (fits constraint member).congr rfl rfl
  cases result with
  | error failure =>
      refine ⟨next, 1, .error failure, middle, .fail ends.rewrites,
        clear.trans ends.leads, ends.admits, by omega, fun isStrict => ?_, nofun⟩
      obtain ⟨_, equal⟩ := ends.succeeds isStrict
      cases equal
  | ok deferred =>
      obtain ⟨kept, simple, atomic⟩ := ends.rewrites.exists_kept
      by_cases same : middle.state.assignment.size = before.state.assignment.size
      · have addSimple : next.Leads middle next (middle.addSimple deferred) :=
          .of_same next rfl rfl
        refine ⟨next, 1, .ok (), middle.addSimple deferred, .last ends.rewrites same,
          (clear.trans ends.leads).trans addSimple, ends.admits.congr rfl rfl, by omega,
          fun _ => rfl, fun _ => ⟨kept ++ deferred, ?_, ?_⟩⟩
        · change middle.state.simple ++ deferred = _
          rw [simple]
          exact List.append_assoc _ _ _
        · intro constraint member first second pair
          rcases List.mem_append.mp member with member | member
          · obtain ⟨_, step⟩ := atomic constraint member
            cases step.variablePair?_of_keep.symm.trans pair
          · exact (constraint.holdsUnder_iff_of_variablePair? pair next.unifier).mp
              (ends.deferred deferred rfl constraint member).holds
      · have addPending : next.Leads middle next (middle.addPending deferred) :=
          .of_same next rfl rfl
        have grown : before.state.assignment.size < middle.state.assignment.size :=
          Nat.lt_of_le_of_ne ends.rewrites.size_le (Ne.symm same)
        -- What a pass binds is paid for by the potential, of which the next pass has less.
        have spends : next.potential + middle.state.assignment.size ≤
            prospect.potential + before.state.assignment.size := ends.leads.spends
        obtain ⟨last, passes, result, after, completes⟩ := exists_completes next
          (middle.addPending deferred) (ends.admits.congr rfl rfl) fun constraint member =>
            (List.mem_append.mp member).elim
              (fun old => ((ends.pending constraint old).elim nofun id).congr rfl rfl)
              (fun new => (ends.deferred deferred rfl constraint new).congr rfl rfl)
        have fewer := completes.passes_le
        refine ⟨last, passes + 1, result, after,
          .next ends.rewrites same completes.simplifies,
          ((clear.trans ends.leads).trans addPending).trans completes.leads,
          completes.admits, by omega, completes.succeeds, fun succeeded => ?_⟩
        obtain ⟨added, simpleRest, equates⟩ := completes.equates succeeded
        refine ⟨kept ++ added, ?_, ?_⟩
        · rw [simpleRest]
          change middle.state.simple ++ added = _
          rw [simple]
          exact List.append_assoc _ _ _
        · intro constraint member first second pair
          rcases List.mem_append.mp member with member | member
          · obtain ⟨_, step⟩ := atomic constraint member
            cases step.variablePair?_of_keep.symm.trans pair
          · exact equates constraint member first second pair
termination_by prospect.potential
decreasing_by omega

end Prospect

/-! ## The bound -/

/-- The variables that the pending constraints mention once the assignment is applied,
as far as one of their scopes leaves them free. -/
def Workspace.openVars (workspace : Workspace) : Finset String :=
  (workspace.state.pending.flatMap fun constraint => constraint.types.flatMap fun t =>
    (workspace.state.assignment.apply t).typeVarOccurrences).toFinset.filter
      fun name => ∃ constraint ∈ workspace.state.pending,
        constraint.env.isBound name = false

theorem Workspace.mem_openVars {workspace : Workspace} {name : String} :
    name ∈ workspace.openVars ↔
      (∃ constraint ∈ workspace.state.pending, ∃ t ∈ constraint.types,
        name ∈ (workspace.state.assignment.apply t).typeVarOccurrences) ∧
      ∃ constraint ∈ workspace.state.pending, constraint.env.isBound name = false := by
  rw [openVars, Finset.mem_filter, List.mem_toFinset, List.mem_flatMap]
  simp only [List.mem_flatMap]

theorem Workspace.avoids_of_mem_openVars {workspace : Workspace} (tame : workspace.Tame)
    (pending : ∀ constraint ∈ workspace.state.pending, constraint.Tame workspace.names)
    {name : String} (member : name ∈ workspace.openVars) :
    workspace.names.Avoids name := by
  obtain ⟨⟨constraint, inPending, t, inTypes, occurs⟩, _⟩ := mem_openVars.mp member
  have applied := tame.hereditary.apply t (pending constraint inPending t inTypes)
  rw [Skeleton.typeVarOccurrences_eq_vars applied.kinded] at occurs
  exact applied.avoided name occurs

theorem Workspace.isBound_or_mem_openVars {workspace : Workspace} (tame : workspace.Tame)
    (pending : ∀ constraint ∈ workspace.state.pending, constraint.Tame workspace.names)
    {constraint : Constraint} (member : constraint ∈ workspace.state.pending)
    {t : RefinedType} (inside : t ∈ constraint.types) {name : String}
    (occurs : name ∈ (t.toTerm.substitute workspace.state.assignment.image).vars) :
    (∀ other ∈ workspace.state.pending, other.env.isBound name) ∨
      name ∈ workspace.openVars := by
  by_cases isRigid : ∀ other ∈ workspace.state.pending, other.env.isBound name
  · exact .inl isRigid
  · have applied := tame.hereditary.apply t (pending constraint member t inside)
    refine .inr (mem_openVars.mpr ⟨⟨constraint, member, t, inside, ?_⟩, ?_⟩)
    · rw [Skeleton.typeVarOccurrences_eq_vars applied.kinded, TypeAssignment.toTerm_apply]
      exact occurs
    · simpa using isRigid

/-- If a substitution solves what is pending, simplification comes to an end, and it
takes at most one pass more than the sizes of the open variables add up to. -/
theorem simplifyAll_ends_within_unifier_size (before : Workspace)
    (unifier : String → TypeTerm) (tame : before.Tame)
    (pending : ∀ constraint ∈ before.state.pending, constraint.Tame before.names)
    (respects : before.state.assignment.Respects unifier)
    (solves : ∀ constraint ∈ before.state.pending, constraint.HoldsUnder unifier) :
    ∃ outcome after enough, outcome ≠ .error .unfinished ∧
      (∀ passes, outcome = .ok passes →
        passes ≤ ∑ name ∈ before.openVars, (unifier name).size + 1) ∧
      ∀ steps, enough ≤ steps →
        (simplifyAll steps).run.run before = (outcome, after) ∧
        (simplifyPasses steps
          (∑ name ∈ before.openVars, (unifier name).size + 1)).run.run before =
            (outcome, after) := by
  -- Nothing is asked of bound variables: they may stand for anything.
  let prospect : Prospect (fun name => ∀ constraint ∈ before.state.pending,
      constraint.env.isBound name) False :=
    { unifier := unifier, names := before.openVars, constants := False.elim }
  have admits : prospect.Admits before :=
    ⟨tame, respects, fun _ member => Workspace.avoids_of_mem_openVars tame pending member,
      False.elim, False.elim⟩
  have fits : ∀ constraint ∈ before.state.pending, prospect.Fits before constraint :=
    fun constraint member => ⟨pending constraint member,
      fun _ isRigid => isRigid constraint member, False.elim,
      fun _ inside _ occurs =>
        Workspace.isBound_or_mem_openVars tame pending member inside occurs,
      solves constraint member⟩
  obtain ⟨next, passes, result, after, completes⟩ :=
    prospect.exists_completes before admits fits
  have within : passes ≤ ∑ name ∈ before.openVars, (unifier name).size + 1 :=
    completes.passes_le
  obtain ⟨enough, runs⟩ := completes.simplifies.run_simplifyPasses
  refine ⟨_, after, max enough passes, ?_, ?_, fun steps sufficient =>
    ⟨runs steps (Nat.max_le.mp sufficient).1 steps (Nat.max_le.mp sufficient).2,
      runs steps (Nat.max_le.mp sufficient).1 _ within⟩⟩
  · cases result <;> exact nofun
  · intro counted equal
    cases result with
    | error _ => cases equal
    | ok _ =>
        cases equal
        exact within

def pairChain : Workspace where
  names := {}
  state :=
    let var (name : String) : RefinedType := .atom (.typeVar name) .top
    let pair (first second : RefinedType) : RefinedType :=
      .scalar (.data "Pair") [first, second] .top
    { pending := [
        .subtype ∅ (pair (var "a") (var "b")) (var "x"),
        .subtype ∅ (var "x") (var "y"),
        .subtype ∅ (var "y") (pair (.atom .int .top) (var "a"))] }

/-- With four open variables, six passes are made. -/
theorem pairChain_passes :
    pairChain.state.assignment.Acyclic ∧ pairChain.openVars.card = 4 ∧
      ((simplifyAll 40).run.run pairChain).1 = .ok 6 := by
  refine ⟨(Workspace.Tame.of_empty rfl).acyclic, by decide +kernel, ?_⟩
  have six : ((simplifyAll 40).run.run pairChain).1.toOption = some 6 := by
    decide +kernel
  cases ran : ((simplifyAll 40).run.run pairChain).1 with
  | error _ =>
      rw [ran] at six
      cases six
  | ok passes =>
      rw [ran] at six
      cases six
      rfl

def pairSolution (name : String) : TypeTerm :=
  let number : TypeTerm := .node (.scalar .int) []
  if name = "a" ∨ name = "b" then number
  else .node (.scalar (.data "Pair")) [number, number]

theorem pairChain_tame :
    ∀ constraint ∈ pairChain.state.pending, constraint.Tame pairChain.names := by
  have avoids : ∀ name ∈ ["a", "b", "x", "y"], NameSupply.Avoids {} name :=
    NameSupply.forall_avoids (by decide) _
  simp only [List.mem_cons, List.not_mem_nil, or_false, forall_eq_or_imp, forall_eq] at avoids
  simp [pairChain, Constraint.Tame, Constraint.types, Skeleton.toTerm, Skeleton.toTerms, avoids]

theorem pairChain_solved :
    ∀ constraint ∈ pairChain.state.pending, constraint.HoldsUnder pairSolution := by
  simp [pairChain, Constraint.HoldsUnder, Skeleton.toTerm, Skeleton.toTerms, pairSolution]

theorem pairChain_ends :
    ∃ outcome after enough, outcome ≠ .error .unfinished ∧
      (∀ passes, outcome = .ok passes →
        passes ≤ ∑ name ∈ pairChain.openVars, (pairSolution name).size + 1) ∧
      ∀ steps, enough ≤ steps →
        (simplifyAll steps).run.run pairChain = (outcome, after) ∧
        (simplifyPasses steps
          (∑ name ∈ pairChain.openVars, (pairSolution name).size + 1)).run.run pairChain =
            (outcome, after) :=
  simplifyAll_ends_within_unifier_size pairChain pairSolution (.of_empty rfl)
    pairChain_tame nofun pairChain_solved

end Inhabit
