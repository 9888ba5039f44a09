import Inhabit.Proofs.Simplification.PassBound

/-! Simplification decides whether the pending constraints can be unified, and what it
finds is most general. -/

namespace Inhabit

/-! ## Identified variables -/

/-- One variable for all that a list of pairs connects. -/
def identify : List (String × String) → String → String
  | [], name => name
  | (first, second) :: rest, name =>
      if identify rest name = identify rest first then identify rest second
      else identify rest name

theorem identify_eq_of_mem {pairs : List (String × String)} {first second : String}
    (member : (first, second) ∈ pairs) :
    identify pairs first = identify pairs second := by
  induction pairs with
  | nil => cases member
  | cons head rest induction =>
      obtain ⟨x, y⟩ := head
      rcases List.mem_cons.mp member with equal | member
      · cases equal
        rw [identify, identify, if_pos rfl]
        split <;> rfl
      · rw [identify, identify, induction member]

theorem apply_identify {pairs : List (String × String)} {unifier : String → TypeTerm}
    (equates : ∀ first second, (first, second) ∈ pairs → unifier first = unifier second)
    (name : String) : unifier (identify pairs name) = unifier name := by
  induction pairs generalizing name with
  | nil => rfl
  | cons head rest induction =>
      obtain ⟨first, second⟩ := head
      have inner := induction fun x y member => equates x y (List.mem_cons_of_mem _ member)
      rw [identify]
      split
      next same =>
        calc unifier (identify rest second)
            = unifier second := inner second
          _ = unifier first := (equates first second List.mem_cons_self).symm
          _ = unifier (identify rest first) := (inner first).symm
          _ = unifier (identify rest name) := by rw [same]
          _ = unifier name := inner name
      next => exact inner name

/-! ## Unification problems -/

/-- The substitution keeps bound variables and makes the two sides of every subtyping
equal, read under the assignment. -/
structure Unifies (bound : String → Bool) (assignment : TypeAssignment)
    (constraints : List Constraint) (unifier : String → TypeTerm) : Prop where
  constants : ∀ name, bound name → unifier name = .constant name
  equates : ∀ constraint ∈ constraints,
    (assignment.applyConstraint constraint).HoldsUnder unifier

namespace Workspace

/-- The pending constraints pose a unification problem: their scopes bind the same
type variables, none of which is assigned, no variable carries arguments, the
assignment has no cycles, and no name that is still to be handed out is in use. -/
structure Poses (bound : String → Bool) (workspace : Workspace) : Prop where
  tame : workspace.Tame
  pending : ∀ constraint ∈ workspace.state.pending, constraint.Tame workspace.names
  scopes : ∀ constraint ∈ workspace.state.pending, ∀ name,
    constraint.env.isBound name = bound name
  boundAvoided : ∀ name, bound name → workspace.names.Avoids name
  boundOpen : ∀ name, bound name → workspace.state.assignment.find? name = none

def deferredPairs (before after : Workspace) : List (String × String) :=
  (after.state.simple.drop before.state.simple.length).filterMap
    Constraint.variablePair?

/-- What a run makes of a variable: the assignment is followed to the end, and the
variables of deferred constraints are identified. -/
def solution (bound : String → Bool) (before after : Workspace) (name : String) :
    TypeTerm :=
  (after.state.assignment.image name).substitute fun other =>
    if bound other then .constant other
    else .var (identify (deferredPairs before after) other)

def Succeeds (workspace : Workspace) : Prop :=
  ∃ steps passes after, (simplifyAll steps).run.run workspace = (.ok passes, after)

variable {bound : String → Bool} {before after : Workspace}
  {unifier : String → TypeTerm}

private theorem holdsUnder_apply_iff {assignment : TypeAssignment}
    {constraint : Constraint} :
    (assignment.applyConstraint constraint).HoldsUnder unifier ↔
      constraint.HoldsUnder fun name => (assignment.image name).substitute unifier := by
  cases constraint with
  | wellFormed | wellFormedGuard => rfl
  | subtype env left right =>
      simp only [TypeAssignment.applyConstraint, Constraint.HoldsUnder,
        TypeAssignment.toTerm_apply, TypeTerm.substitute_substitute]

/-- With a unifier, simplification ends well, and the unifier extends to the new
variables so that it respects what has been found. -/
private theorem Poses.exists_simplifies (poses : before.Poses bound)
    (unifies : Unifies bound before.state.assignment before.state.pending unifier) :
    ∃ passes after, Simplifies before passes (.ok ()) after ∧ after.Tame ∧
      ∃ extension : String → TypeTerm,
        (∀ name, before.names.Avoids name →
          before.state.assignment.find? name = none → extension name = unifier name) ∧
        (∀ name, bound name → extension name = .constant name) ∧
        after.state.assignment.Respects extension ∧
        ∀ first second, (first, second) ∈ deferredPairs before after →
          extension first = extension second := by
  have acyclic := poses.tame.acyclic
  let prospect : Prospect (fun name => bound name = true) True := {
    unifier := fun name => (before.state.assignment.image name).substitute unifier
    names := before.openVars
    constants := fun _ name isBound => by
      rw [TypeAssignment.image_of_unassigned (poses.boundOpen name isBound)]
      exact unifies.constants name isBound }
  have admits : prospect.Admits before :=
    ⟨poses.tame, acyclic.respects_extension unifier,
      fun _ member => avoids_of_mem_openVars poses.tame poses.pending member,
      fun _ => poses.boundAvoided, fun _ => poses.boundOpen⟩
  have fits : ∀ constraint ∈ before.state.pending, prospect.Fits before constraint := by
    intro constraint member
    have scope := poses.scopes constraint member
    refine ⟨poses.pending constraint member, fun name isBound => (scope name).trans isBound,
      fun _ name isBound => (scope name).symm.trans isBound, fun t inside name occurs => ?_,
      holdsUnder_apply_iff.mp (unifies.equates constraint member)⟩
    exact (isBound_or_mem_openVars poses.tame poses.pending member inside occurs).imp_left
      fun everywhere => (scope name).symm.trans (everywhere constraint member)
  obtain ⟨next, passes, result, after, completes⟩ :=
    prospect.exists_completes before admits fits
  obtain rfl := completes.succeeds trivial
  obtain ⟨added, simple, equates⟩ := completes.equates rfl
  refine ⟨passes, after, completes.simplifies, completes.admits.tame, next.unifier,
    fun name avoids isOpen => ?_, next.constants trivial, completes.admits.respects, ?_⟩
  · rw [completes.leads.agrees name avoids]
    change (before.state.assignment.image name).substitute unifier = unifier name
    rw [TypeAssignment.image_of_unassigned isOpen, TypeTerm.substitute_var]
  · intro first second member
    rw [deferredPairs, simple, List.drop_left, List.mem_filterMap] at member
    obtain ⟨constraint, member, pair⟩ := member
    exact equates constraint member first second pair

theorem Poses.unifies_solution (poses : before.Poses bound) {passes : Nat}
    (simplifies : Simplifies before passes (.ok ()) after) :
    Unifies bound before.state.assignment before.state.pending
      (solution bound before after) := by
  obtain ⟨added, sound⟩ := simplifies.sound poses.tame poses.pending
  have pairs : deferredPairs before after = added.filterMap Constraint.variablePair? := by
    rw [deferredPairs, sound.simple, List.drop_left]
  have respects : after.state.assignment.Respects (solution bound before after) :=
    sound.tame.acyclic.respects_extension _
  have openImage : ∀ name, after.state.assignment.find? name = none →
      solution bound before after name = if bound name then .constant name
        else .var (identify (deferredPairs before after) name) := fun name isOpen => by
    rw [solution, TypeAssignment.image_of_unassigned isOpen, TypeTerm.substitute_var]
  obtain ⟨respectsBefore, holds⟩ := sound.solves _ respects
    fun constraint member first second pair => by
      obtain ⟨firstOpen, secondOpen⟩ := sound.pairs constraint member first second pair
      have scope := sound.scopes (fun isBound => ∀ name, isBound name = bound name)
        poses.scopes constraint member (by simp [pair])
      obtain ⟨firstFree, secondFree⟩ := constraint.isBound_of_variablePair? pair
      rw [scope] at firstFree secondFree
      rw [openImage first firstOpen, openImage second secondOpen, firstFree, secondFree,
        pairs]
      exact congrArg TypeTerm.var (identify_eq_of_mem
        (List.mem_filterMap.mpr ⟨constraint, member, pair⟩))
  refine ⟨fun name isBound => ?_, fun constraint member => ?_⟩
  · have isOpen := simplifies.find?_of_isBound
      (fun constraint member => (poses.scopes constraint member name).trans isBound)
      (poses.boundOpen name isBound)
    rw [openImage name isOpen, if_pos isBound]
  · refine holdsUnder_apply_iff.mpr ?_
    have unchanged : (fun name => (before.state.assignment.image name).substitute
        (solution bound before after)) = solution bound before after :=
      funext fun name => poses.tame.acyclic.substitute_image respectsBefore name
    rw [unchanged]
    exact holds constraint member

private theorem eq_substitute_solution (acyclic : after.state.assignment.Acyclic)
    {extension : String → TypeTerm}
    (constants : ∀ name, bound name → extension name = .constant name)
    (respects : after.state.assignment.Respects extension)
    (equates : ∀ first second, (first, second) ∈ deferredPairs before after →
      extension first = extension second) (name : String) :
    extension name = (solution bound before after name).substitute extension := by
  rw [solution, TypeTerm.substitute_substitute]
  refine ((acyclic.substitute_image respects name).symm).trans ?_
  refine TypeTerm.substitute_congr fun other _ => ?_
  cases isBound : bound other with
  | true => exact constants other isBound
  | false => exact (apply_identify equates other).symm

private theorem Poses.succeeds_iff (poses : before.Poses bound) :
    before.Succeeds ↔ ∃ unifier,
      Unifies bound before.state.assignment before.state.pending unifier := by
  constructor
  · rintro ⟨steps, passes, after, ran⟩
    obtain ⟨_, result, simplifies, equal⟩ := simplifies_of_run ran nofun
    cases result with
    | error _ => cases equal
    | ok _ => exact ⟨_, poses.unifies_solution simplifies⟩
  · rintro ⟨unifier, unifies⟩
    obtain ⟨passes, after, simplifies, _⟩ := poses.exists_simplifies unifies
    obtain ⟨enough, runs⟩ := simplifies.run_simplifyAll
    exact ⟨enough, passes, after, runs enough (Nat.le_refl _)⟩

private theorem Poses.perm (poses : before.Poses bound) {queue : List Constraint}
    (perm : queue.Perm before.state.pending) :
    Poses bound { before with state := { before.state with pending := queue } } where
  tame := ⟨poses.tame.acyclic, poses.tame.keys, poses.tame.types⟩
  pending constraint member := poses.pending constraint (perm.mem_iff.mp member)
  scopes constraint member := poses.scopes constraint (perm.mem_iff.mp member)
  boundAvoided := poses.boundAvoided
  boundOpen := poses.boundOpen

end Workspace

/-- Simplification ends well just when the pending constraints can be unified. What it
finds then unifies them, and every unifier is an instance of it, up to the variables
that are new. In which order the constraints wait makes no difference. -/
theorem simplifyAll_decides_unifiability (bound : String → Bool) (before : Workspace)
    (poses : before.Poses bound) :
    (before.Succeeds ↔ ∃ unifier,
      Unifies bound before.state.assignment before.state.pending unifier) ∧
    (∀ steps passes after, (simplifyAll steps).run.run before = (.ok passes, after) →
      Unifies bound before.state.assignment before.state.pending
        (Workspace.solution bound before after) ∧
      ∀ unifier, Unifies bound before.state.assignment before.state.pending unifier →
        ∃ extension : String → TypeTerm,
          (∀ name, before.names.Avoids name →
            before.state.assignment.find? name = none →
              extension name = unifier name) ∧
          ∀ name, extension name =
            (Workspace.solution bound before after name).substitute extension) ∧
    ∀ queue : List Constraint, queue.Perm before.state.pending →
      (Workspace.Succeeds { before with state := { before.state with pending := queue } } ↔
        before.Succeeds) := by
  refine ⟨poses.succeeds_iff, fun steps passes after ran => ?_, fun queue perm => ?_⟩
  · obtain ⟨_, result, simplifies, equal⟩ := simplifies_of_run ran nofun
    cases result with
    | error _ => cases equal
    | ok _ =>
        refine ⟨poses.unifies_solution simplifies, fun unifier unifies => ?_⟩
        obtain ⟨_, other, otherRun, tame, extension, agrees, constants, respects, equates⟩ :=
          poses.exists_simplifies unifies
        obtain ⟨_, rfl⟩ := simplifies.unique otherRun
        exact ⟨extension, agrees,
          Workspace.eq_substitute_solution tame.acyclic constants respects equates⟩
  · rw [poses.succeeds_iff, (poses.perm perm).succeeds_iff]
    refine exists_congr fun unifier => ⟨fun unifies => ?_, fun unifies => ?_⟩
    · exact ⟨unifies.constants, fun constraint member =>
        unifies.equates constraint (perm.mem_iff.mpr member)⟩
    · exact ⟨unifies.constants, fun constraint member =>
        unifies.equates constraint (perm.mem_iff.mp member)⟩

private theorem pairChain_scopes :
    ∀ constraint ∈ pairChain.state.pending, ∀ name,
      constraint.env.isBound name = false := by
  simp only [pairChain, List.mem_cons, List.not_mem_nil, or_false]
  rintro constraint (rfl | rfl | rfl) <;> exact fun _ => rfl

theorem pairChain_succeeds :
    Workspace.Poses (fun _ => false) pairChain ∧ pairChain.Succeeds := by
  have poses : Workspace.Poses (fun _ => false) pairChain :=
    ⟨.of_empty rfl, pairChain_tame, pairChain_scopes, nofun, nofun⟩
  refine ⟨poses, (simplifyAll_decides_unifiability _ pairChain poses).1.mpr
    ⟨pairSolution, nofun, ?_⟩⟩
  simp [pairChain, TypeAssignment.applyConstraint, Constraint.HoldsUnder, Skeleton.toTerm,
    Skeleton.toTerms, pairSolution]

def assignedBound : Workspace where
  names := {}
  state :=
    { assignment := .singleton "b" (.atom .int .top)
      pending := [.subtype (Environment.addTypeVar ∅ "b") (.atom (.typeVar "b") .top)
        (.atom .int .top)] }

/-- The assignment makes the two sides of the subtyping equal, but only free variables
are followed. -/
theorem assignedBound_fails :
    assignedBound.Tame ∧
    (∀ constraint ∈ assignedBound.state.pending, constraint.Tame assignedBound.names) ∧
    (∀ constraint ∈ assignedBound.state.pending, ∀ name,
      constraint.env.isBound name = ["b"].contains name) ∧
    (∃ unifier, Unifies (["b"].contains ·) assignedBound.state.assignment
      assignedBound.state.pending unifier) ∧
    ¬ assignedBound.Succeeds := by
  have number : ∀ name t, assignedBound.state.assignment.find? name = some t →
      name = "b" ∧ t = .atom .int .top := by
    intro name t found
    change SortedMap.find? (SortedMap.insert ∅ "b" _) name = some t at found
    rw [SortedMap.find?_insert] at found
    by_cases same : name = "b"
    · rw [if_pos same, Option.some_inj] at found
      exact ⟨same, found.symm⟩
    · rw [if_neg same] at found
      cases found
  have avoids : assignedBound.names.Avoids "b" :=
    NameSupply.avoids_of_not_prefix (by decide) _
  have acyclic : assignedBound.state.assignment.Acyclic := by
    refine TypeAssignment.acyclic_of_rank (fun _ => 0) ?_
    rintro name other ⟨t, found, occurs⟩
    rw [(number name t found).2] at occurs
    cases occurs
  refine ⟨⟨acyclic, fun name t found => (number name t found).1 ▸ avoids,
    fun name t found => ?_⟩, ?_, ?_, ⟨TypeTerm.constant, fun _ _ => rfl, ?_⟩, ?_⟩
  · rw [(number name t found).2]
    exact TypeTerm.tame_node_iff.mpr ⟨nofun, nofun⟩
  · have tame : TypeTerm.Tame assignedBound.names (.node (.scalar .int) []) :=
      TypeTerm.tame_node_iff.mpr ⟨nofun, nofun⟩
    simp only [assignedBound, forall_eq, Constraint.Tame, Constraint.types,
      List.mem_cons, List.not_mem_nil, or_false, forall_eq_or_imp]
    exact ⟨TypeTerm.tame_var_iff.mpr avoids, tame⟩
  · simp only [assignedBound, List.mem_singleton, forall_eq]
    exact fun _ => rfl
  · have image := acyclic.respects_image "b" (.atom .int .top)
      (SortedMap.find?_insert_self _ _ _)
    simp only [assignedBound, List.mem_singleton, forall_eq, TypeAssignment.applyConstraint,
      Constraint.HoldsUnder, TypeAssignment.toTerm_apply, Skeleton.toTerm_typeVar,
      TypeTerm.substitute_var] at image ⊢
    rw [image]
  · rintro ⟨steps, passes, after, ran⟩
    obtain ⟨_, result, simplifies, equal⟩ := simplifies_of_run ran (by rintro ⟨⟩)
    have fails : Simplifies assignedBound 1 (.error _) _ :=
      .fail (.mismatch [] (by decide))
    rw [(simplifies.unique fails).1] at equal
    cases equal

end Inhabit
