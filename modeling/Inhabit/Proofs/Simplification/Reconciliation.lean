import Inhabit.Proofs.Faults.Stuck
import Inhabit.Proofs.Simplification.Termination
import Inhabit.Proofs.Unification.Copies

/-! What becomes of a constraint after one of its sides has been bound to a copy of the
other.

The copy is made of the type as it stands, and compared with what the assignment makes of
it, so that its new variables meet types of any depth and are bound in their turn. But there
is a substitution that solves the constraint and leaves alone every variable that was there
before, and the copies made on the way can be told what to stand for. With it, a variable
that is bound or put aside without need would have to be equal to something else. -/

namespace Inhabit

/-! ## One side of a subtyping -/

def Constraint.OneSide (property : RefinedType → Prop) : Constraint → Prop
  | .subtype _ left right => property left ∨ property right
  | .wellFormed _ _ | .wellFormedGuard _ _ => False

theorem Constraint.OneSide.imp {first second : RefinedType → Prop} {constraint : Constraint}
    (holds : constraint.OneSide first) (implies : ∀ t ∈ constraint.types, first t → second t) :
    constraint.OneSide second := by
  cases constraint with
  | wellFormed | wellFormedGuard => exact holds
  | subtype env left right =>
      rw [types, List.forall_mem_cons, List.forall_mem_singleton] at implies
      exact Or.imp implies.1 implies.2 holds

theorem Inherits.oneSide {assignment : TypeAssignment} {property : RefinedType → Prop}
    (inherits : Inherits assignment property) {constraint : Constraint}
    {parts : List Constraint} (step : constraint.Step assignment (.decompose parts))
    (holds : constraint.OneSide property) : ∀ part ∈ parts, part.OneSide property := by
  cases step with
  | applyWellFormed | decomposeScalar | decomposeFunction => exact holds.elim
  | applySubtype env left right _ =>
      exact List.forall_mem_singleton.mpr
        (Or.imp (inherits.apply left) (inherits.apply right) holds)
  | decomposeScalars env base firstHead secondHead first second _ =>
      have head := Or.imp
        (fun whole => inherits.scalarArgument _ _ _ whole _ List.mem_cons_self)
        (fun whole => inherits.scalarArgument _ _ _ whole _ List.mem_cons_self) holds
      have tail := Or.imp
        (fun whole => inherits.scalarFewer _ _ _ whole _ (List.subset_cons_self _ _))
        (fun whole => inherits.scalarFewer _ _ _ whole _ (List.subset_cons_self _ _)) holds
      exact List.forall_mem_cons.mpr ⟨head, List.forall_mem_singleton.mpr tail⟩
  | decomposeFunctions env x firstArgument firstResult y secondArgument secondResult =>
      have arguments := Or.imp (inherits.functionArgument _ _ _)
        (inherits.functionArgument _ _ _) (Or.symm holds)
      have results := Or.imp (inherits.functionResult _ _ _)
        (inherits.functionResult _ _ _) holds
      refine List.forall_mem_cons.mpr ⟨arguments, List.forall_mem_singleton.mpr ?_⟩
      split
      · exact results.imp_left (inherits.renameVar _ _ _ _)
      · exact results

theorem Workspace.Tame.hereditary_vars {workspace : Workspace} (tame : workspace.Tame)
    (property : String → Prop)
    (kept : ∀ t : RefinedType, (∀ name ∈ t.toTerm.vars, property name) →
      ∀ name ∈ (workspace.state.assignment.apply t).toTerm.vars, property name) :
    Hereditary workspace.state.assignment fun t =>
      t.Tame workspace.names ∧ ∀ name ∈ t.vars, property name where
  kinded _ holds := holds.1.kinded
  argument symbol arguments holds t member := by
    refine ⟨tame.hereditary.argument symbol arguments holds.1 t member,
      fun name occurs => holds.2 name ?_⟩
    rw [TypeTerm.vars_node]
    exact List.mem_flatMap.mpr ⟨t, member, occurs⟩
  fewer symbol arguments holds some within := by
    refine ⟨tame.hereditary.fewer symbol arguments holds.1 some within,
      fun name occurs => holds.2 name ?_⟩
    rw [TypeTerm.vars_node] at occurs ⊢
    obtain ⟨t, member, occurs⟩ := List.mem_flatMap.mp occurs
    exact List.mem_flatMap.mpr ⟨t, within member, occurs⟩
  apply t holds := ⟨tame.hereditary.apply t holds.1, kept t holds.2⟩

theorem NameSupply.draws_of_avoids {before after : NameSupply} {name : String}
    (isNew : ¬ before.Avoids name) (avoids : after.Avoids name) : before.Draws after name := by
  unfold Avoids at isNew
  push Not at isNew
  obtain ⟨number, late, equal⟩ := isNew
  refine ⟨number, late, ?_, equal⟩
  by_contra beyond
  exact avoids number (Nat.le_of_not_lt beyond) equal

def Environment.own (env : Environment) (name : String) : TypeTerm :=
  if env.isBound name then .constant name else .var name

/-! ## Trying again -/

/-- A constraint that is tried again: its scope, the names there were before its variable was
bound, the assignment since, and the variables of the side that was copied. -/
structure Retry where
  env : Environment
  start : NameSupply
  assignment : TypeAssignment
  targets : List String

namespace Retry

structure Prepared (retry : Retry) : Prop where
  bound : ∀ name, retry.env.isBound name = true → retry.start.Avoids name
  targets : ∀ name ∈ retry.targets, retry.start.Avoids name
  targetsOpen : ∀ name ∈ retry.targets, retry.assignment.find? name = none

/-- The bound variables are the rigid ones, but they may be assigned. -/
abbrev Solution (retry : Retry) : Type :=
  Prospect (fun name => retry.env.isBound name = true) False

/-- The solution leaves alone what was unassigned, and nothing that was there before has been
bound. -/
structure Sustains (retry : Retry) (solution : retry.Solution) (workspace : Workspace) :
    Prop where
  admits : solution.Admits workspace
  fixes : ∀ name, retry.start.Avoids name → retry.assignment.find? name = none →
    solution.unifier name = retry.env.own name
  kept : ∀ name, retry.start.Avoids name →
    workspace.state.assignment.find? name = retry.assignment.find? name

/-- The constraint compares something with a type that has no other variables than the
targets, and it mentions no bound variable that is assigned. -/
structure Poses (retry : Retry) (constraint : Constraint) : Prop where
  scope : constraint.env.isBound = retry.env.isBound
  boundOpen : ∀ t ∈ constraint.types, ∀ name ∈ t.toTerm.vars,
    retry.env.isBound name = true → retry.assignment.find? name = none
  side : constraint.OneSide fun t => ∀ name ∈ t.toTerm.vars, name ∈ retry.targets

variable {retry : Retry} {solution : retry.Solution} {workspace : Workspace}
  {constraint : Constraint}

theorem Sustains.congr {other : Workspace} (sustains : retry.Sustains solution workspace)
    (names : other.names = workspace.names)
    (assignment : other.state.assignment = workspace.state.assignment) :
    retry.Sustains solution other :=
  ⟨sustains.admits.congr names assignment, sustains.fixes, assignment ▸ sustains.kept⟩

theorem Sustains.constant (sustains : retry.Sustains solution workspace)
    (prepared : retry.Prepared) (poses : retry.Poses constraint) {t : RefinedType}
    (member : t ∈ constraint.types) {name : String} (isVar : t.toTerm = .var name)
    (isBound : constraint.env.isBound name = true) :
    solution.unifier name = .constant name ∧
      workspace.state.assignment.find? name = none := by
  rw [poses.scope] at isBound
  have avoids := prepared.bound name isBound
  have isOpen := poses.boundOpen t member name (by simp [isVar]) isBound
  refine ⟨?_, (sustains.kept name avoids).trans isOpen⟩
  rw [sustains.fixes name avoids isOpen, Environment.own, if_pos isBound]

theorem Sustains.itself (sustains : retry.Sustains solution workspace)
    (poses : retry.Poses constraint) {name : String} (avoids : retry.start.Avoids name)
    (isFree : constraint.env.isBound name = false)
    (isOpen : workspace.state.assignment.find? name = none) :
    solution.unifier name = .var name := by
  rw [sustains.kept name avoids] at isOpen
  rw [poses.scope] at isFree
  rw [sustains.fixes name avoids isOpen, Environment.own, if_neg (by simp [isFree])]

/-! ## Steps -/

theorem Poses.parts (poses : retry.Poses constraint) (prepared : retry.Prepared)
    (sustains : retry.Sustains solution workspace)
    (tame : constraint.Tame workspace.names) {parts : List Constraint}
    (step : constraint.Step workspace.state.assignment (.decompose parts)) :
    ∀ part ∈ parts, retry.Poses part := by
  have inOrder := sustains.admits.tame
  have boundOpen := inOrder.hereditary_vars
    (fun name => retry.env.isBound name = true → retry.assignment.find? name = none)
    fun t _ name occurs isBound => by
      rw [← sustains.kept name (prepared.bound name isBound)]
      exact inOrder.acyclic.find?_of_mem_apply occurs
  have inTargets := inOrder.hereditary_vars (· ∈ retry.targets) fun t within name occurs => by
    rw [TypeAssignment.toTerm_apply, TypeTerm.mem_vars_substitute] at occurs
    obtain ⟨other, inside, occurs⟩ := occurs
    have member := within other inside
    have isOpen := (sustains.kept other (prepared.targets other member)).trans
      (prepared.targetsOpen other member)
    rw [TypeAssignment.image_of_unassigned isOpen, TypeTerm.vars_var,
      List.mem_singleton] at occurs
    exact occurs ▸ member
  have openParts := boundOpen.inherits.parts step fun t member =>
    ⟨tame t member, poses.boundOpen t member⟩
  have sideParts := inTargets.inherits.oneSide step
    (poses.side.imp fun t member within => ⟨tame t member, within⟩)
  intro part member
  exact ⟨(step.parts_isBound part member).trans poses.scope,
    fun t inside => (openParts part member t inside).2,
    (sideParts part member).imp fun _ _ both => both.2⟩

/-- Only a new variable is bound: what was there before would have to stand for itself and for
a type with another root. -/
theorem Sustains.not_avoids_of_bind (sustains : retry.Sustains solution workspace)
    (prepared : retry.Prepared) (poses : retry.Poses constraint)
    (holds : constraint.HoldsUnder solution.unifier) {name : String} {type : RefinedType}
    (step : constraint.Step workspace.state.assignment (.bind name type)) :
    ¬ retry.start.Avoids name := by
  have binds := step.binds
  intro avoids
  have equal := (binds.holdsUnder_iff solution.unifier).mp holds
  rw [sustains.itself poses avoids binds.free binds.isOpen] at equal
  cases term : type.toTerm with
  | node symbol arguments =>
      rw [term, TypeTerm.substitute_node] at equal
      cases equal
  | var other =>
      have isBound := Environment.isBound_of_freeVar?_eq_none binds.rigid term
      rw [term, TypeTerm.substitute_var,
        (sustains.constant prepared poses binds.member term isBound).1] at equal
      cases equal

theorem Sustains.bind (sustains : retry.Sustains solution workspace)
    (fits : solution.Fits workspace constraint) {name : String} {type : RefinedType}
    (step : constraint.Step workspace.state.assignment (.bind name type))
    (absent : workspace.state.assignment.occursIn name type = false)
    (advances : retry.start.issued ≤ workspace.names.issued)
    (isNew : ¬ retry.start.Avoids name) :
    ∃ next : retry.Solution,
      solution.Leads workspace next (workspace.bind constraint.env name type) ∧
      retry.Sustains next (workspace.bind constraint.env name type) := by
  obtain ⟨next, leads, admits, _, _⟩ :=
    Prospect.exists_bind sustains.admits fits step absent
  refine ⟨next, leads, admits, fun other avoids isOpen => ?_, fun other avoids => ?_⟩
  · rw [leads.agrees other (avoids.later advances)]
    exact sustains.fixes other avoids isOpen
  · have different : other ≠ name := fun same => isNew (same ▸ avoids)
    rw [workspace.assignment_bind, SortedMap.find?_insert_of_ne _ different]
    exact sustains.kept other avoids

end Retry

inductive Constraint.Links (before after : NameSupply) (targets : List String) :
    Constraint → Prop where
  | left {env : Environment} {new target : String} (first second : Formula)
      (drawn : before.Draws after new) (member : target ∈ targets) :
      Links before after targets
        (.subtype env (.atom (.typeVar new) first) (.atom (.typeVar target) second))
  | right {env : Environment} {new target : String} (first second : Formula)
      (drawn : before.Draws after new) (member : target ∈ targets) :
      Links before after targets
        (.subtype env (.atom (.typeVar target) first) (.atom (.typeVar new) second))

namespace Retry

variable {retry : Retry} {solution : retry.Solution} {workspace : Workspace}
  {constraint : Constraint}

/-- Only a new variable and a target are put aside: two variables that were there before stand
for themselves, and are not equal unless they are the same. -/
theorem Sustains.links_of_defer (sustains : retry.Sustains solution workspace)
    (prepared : retry.Prepared) (poses : retry.Poses constraint)
    (fits : solution.Fits workspace constraint)
    (deferred : constraint.rewriting workspace.state.assignment = .defer) :
    constraint.Links retry.start workspace.names retry.targets := by
  have holds := fits.holds
  have side := poses.side
  obtain ⟨left, right, different, firstFree, secondFree, firstOpen, secondOpen⟩ :=
    Constraint.rewriting_eq_defer_iff.mp deferred
  rename_i env first second
  have drawn : ∀ {name}, ¬ retry.start.Avoids name → workspace.names.Avoids name →
      retry.start.Draws workspace.names name := NameSupply.draws_of_avoids
  have equal : solution.unifier first = solution.unifier second := holds
  have firstAvoided : workspace.names.Avoids first :=
    (fits.tame _ List.mem_cons_self).avoided first (List.mem_singleton_self _)
  have secondAvoided : workspace.names.Avoids second :=
    (fits.tame _ (List.mem_cons_of_mem _ List.mem_cons_self)).avoided second
      (List.mem_singleton_self _)
  have notBoth : ¬ (retry.start.Avoids first ∧ retry.start.Avoids second) := by
    rintro ⟨firstOld, secondOld⟩
    rw [sustains.itself poses firstOld firstFree firstOpen,
      sustains.itself poses secondOld secondFree secondOpen] at equal
    exact different (TypeTerm.var.inj equal)
  rcases side with inTargets | inTargets
  · have member := inTargets first (List.mem_singleton_self _)
    have firstOld := prepared.targets first member
    exact .right left right (drawn (fun secondOld => notBoth ⟨firstOld, secondOld⟩) secondAvoided)
      member
  · have member := inTargets second (List.mem_singleton_self _)
    have secondOld := prepared.targets second member
    exact .left left right (drawn (fun firstOld => notBoth ⟨firstOld, secondOld⟩) firstAvoided)
      member

end Retry

/-! ## Runs -/

theorem Rewrites.issued_le {before after : Workspace} {constraints : List Constraint}
    {result : Except Failure (List Constraint)}
    (rewrites : Rewrites before constraints result after) :
    before.names.issued ≤ after.names.issued := by
  induction rewrites with
  | done | mismatch | occurs => exact Nat.le_refl _
  | decompose _ _ induction | keep _ _ induction | drop _ _ induction
  | defer _ _ induction => exact induction
  | bind _ _ _ induction => exact (Workspace.issued_le_bind _ _ _ _).trans induction

theorem Constraint.Links.later {before middle after : NameSupply} {targets : List String}
    {constraint : Constraint} (links : constraint.Links before middle targets)
    (advances : middle.issued ≤ after.issued) : constraint.Links before after targets := by
  cases links with
  | left first second drawn member =>
      exact .left first second (drawn.mono (Nat.le_refl _) advances) member
  | right first second drawn member =>
      exact .right first second (drawn.mono (Nat.le_refl _) advances) member

namespace Retry

structure Reconciled (retry : Retry) (result : Except Failure (List Constraint))
    (after : Workspace) : Prop where
  sustained : ∃ last, retry.Sustains last after
  succeeds : ∃ deferred, result = .ok deferred ∧
    ∀ constraint ∈ deferred, constraint.Links retry.start after.names retry.targets

variable {retry : Retry}

/-- Trying again ends well if it ends: with a solution there is no failure, and since it is
sustained, nothing but new variables can be bound or put aside. -/
theorem Sustains.reconciled {solution : retry.Solution} {before after : Workspace}
    {constraints : List Constraint} {result : Except Failure (List Constraint)}
    (rewrites : Rewrites before constraints result after)
    (sustains : retry.Sustains solution before) (prepared : retry.Prepared)
    (advances : retry.start.issued ≤ before.names.issued)
    (fits : ∀ constraint ∈ constraints, solution.Fits before constraint)
    (poses : ∀ constraint ∈ constraints, retry.Poses constraint) :
    retry.Reconciled result after := by
  -- Every binding changes the solution, which is told what the new variables stand for.
  induction rewrites generalizing solution with
  | done workspace => exact ⟨⟨solution, sustains⟩, [], rfl, List.forall_mem_nil _⟩
  | @decompose before _ constraint parts rest _ rewriting _ induction =>
      have step := Constraint.step_of_rewriting rewriting
      rw [List.forall_mem_cons] at fits poses
      exact induction sustains advances
        (List.forall_mem_append.mpr ⟨fits.1.parts sustains.admits step, fits.2⟩)
        (List.forall_mem_append.mpr
          ⟨poses.1.parts prepared sustains fits.1.tame step, poses.2⟩)
  | @bind before _ constraint rest _ name type rewriting absent _ induction =>
      have step := Constraint.step_of_rewriting rewriting
      have headFits := fits constraint List.mem_cons_self
      have isNew := sustains.not_avoids_of_bind prepared (poses constraint List.mem_cons_self)
        headFits.holds step
      obtain ⟨next, leads, nextSustains⟩ := sustains.bind headFits step absent advances isNew
      exact induction nextSustains (advances.trans leads.advances)
        (fun other member => leads.fits other (fits other member)) poses
  | keep rewriting _ induction =>
      rw [List.forall_mem_cons] at fits poses
      exact induction (sustains.congr rfl rfl) advances
        (fun other member => (fits.2 other member).congr rfl rfl) poses.2
  | @defer _ _ constraint _ _ rewriting continues induction =>
      rw [List.forall_mem_cons] at fits poses
      have links := sustains.links_of_defer prepared poses.1 fits.1 rewriting
      obtain ⟨sustained, deferred, rfl, others⟩ := induction sustains advances fits.2 poses.2
      exact ⟨sustained, constraint :: deferred, rfl,
        List.forall_mem_cons.mpr ⟨links.later continues.issued_le, others⟩⟩
  | drop _ _ induction =>
      rw [List.forall_mem_cons] at fits poses
      exact induction sustains advances fits.2 poses.2
  | @mismatch workspace constraint rest rewriting =>
      have step := Constraint.step_of_rewriting rewriting
      have headPoses := poses constraint List.mem_cons_self
      exact absurd step
        ((fits constraint List.mem_cons_self).holds.no_mismatch fun t member name isVar isBound =>
          (sustains.constant prepared headPoses member isVar isBound).1)
  | @occurs workspace constraint name type rest rewriting present =>
      have step := Constraint.step_of_rewriting rewriting
      have headPoses := poses constraint List.mem_cons_self
      have absent := (fits constraint List.mem_cons_self).no_occurrence_of_open sustains.admits
        step fun other isVar =>
          (sustains.constant prepared headPoses step.binds.member isVar
            (Environment.isBound_of_freeVar?_eq_none step.binds.rigid isVar)).2
      rw [absent] at present
      cases present

end Retry

/-! ## After the first binding -/

theorem Prospect.Fits.symm {rigid : String → Prop} {strict : Prop}
    {prospect : Prospect rigid strict} {workspace : Workspace} {env : Environment}
    {left right : RefinedType} (fits : prospect.Fits workspace (.subtype env left right)) :
    prospect.Fits workspace (.subtype env right left) where
  tame t member := fits.tame t ((List.Perm.swap left right []).mem_iff.mp member)
  bound := fits.bound
  free := fits.free
  covers t member := fits.covers t ((List.Perm.swap left right []).mem_iff.mp member)
  holds := Eq.symm fits.holds

def Constraint.comparing (env : Environment) (name : String) (refinement : Formula)
    (type : RefinedType) : List Constraint :=
  [.subtype env (.atom (.typeVar name) refinement) type,
    .subtype env type (.atom (.typeVar name) refinement)]

/-- A free and unassigned variable is about to be bound to a type that is no free variable. No
type variable carries arguments, and nothing there is bears a name to come. -/
structure Workspace.MayBind (before : Workspace) (env : Environment) (name : String)
    (type : RefinedType) : Prop where
  tame : before.Tame
  scope : ∀ other, env.isBound other = true → before.names.Avoids other
  isFree : env.isBound name = false
  isOpen : before.state.assignment.find? name = none
  avoids : before.names.Avoids name
  rigid : env.freeVar? type = none
  typeTame : type.toTerm.Tame before.names

def Workspace.retry (before : Workspace) (env : Environment) (name : String)
    (type : RefinedType) : Retry where
  env := env
  start := before.names
  assignment := (before.bind env name type).state.assignment
  targets := (before.state.assignment.apply type).toTerm.vars

namespace Workspace.MayBind

variable {before : Workspace} {env : Environment} {name : String} {type : RefinedType}

theorem exists_unifier (mayBind : before.MayBind env name type)
    (absent : before.state.assignment.occursIn name type = false) :
    ∃ unifier, before.state.assignment.Respects unifier ∧
      unifier name = type.toTerm.substitute unifier ∧
      ∀ other, other ≠ name → before.state.assignment.find? other = none →
        unifier other = env.own other := by
  let closed := (before.state.assignment.apply type).toTerm.substitute env.own
  let start := Function.update env.own name closed
  have notMem := mayBind.tame.not_mem_vars_apply mayBind.typeTame absent
  have unassigned : ∀ other, before.state.assignment.find? other = none →
      (before.state.assignment.image other).substitute start = start other :=
    fun other isOpen => by
      rw [TypeAssignment.image_of_unassigned isOpen, TypeTerm.substitute_var]
  have sameType : (before.state.assignment.apply type).toTerm.substitute start = closed :=
    TypeTerm.substitute_congr fun other occurs =>
      Function.update_of_ne (by rintro rfl; exact notMem occurs) _ _
  refine ⟨fun other => (before.state.assignment.image other).substitute start,
    mayBind.tame.acyclic.respects_extension start, ?_, fun other different isOpen => ?_⟩
  · calc (before.state.assignment.image name).substitute start
        = closed := (unassigned name mayBind.isOpen).trans (Function.update_self _ _ _)
      _ = (before.state.assignment.apply type).toTerm.substitute start := sameType.symm
      _ = _ := by rw [TypeAssignment.toTerm_apply, TypeTerm.substitute_substitute]
  · exact (unassigned other isOpen).trans (Function.update_of_ne different _ _)

theorem exists_solution (mayBind : before.MayBind env name type)
    (absent : before.state.assignment.occursIn name type = false) (refinement : Formula) :
    ∃ solution : Prospect (fun other => env.isBound other = true) False,
      solution.Admits before ∧
      (∀ constraint ∈ Constraint.comparing env name refinement type,
        solution.Fits before constraint) ∧
      ∀ other, other ≠ name → before.state.assignment.find? other = none →
        solution.unifier other = env.own other := by
  obtain ⟨unifier, respects, solves, itself⟩ := mayBind.exists_unifier absent
  let applied := (before.state.assignment.apply type).toTerm
  have appliedTame := mayBind.tame.hereditary.apply type mayBind.typeTame
  let solution : Prospect (fun other => env.isBound other = true) False := {
    unifier := unifier
    names := insert name applied.vars.toFinset
    constants := False.elim }
  have admits : solution.Admits before := {
    tame := mayBind.tame
    respects := respects
    avoided := fun other member => by
      rcases Finset.mem_insert.mp member with rfl | member
      · exact mayBind.avoids
      · exact appliedTame.avoided other (List.mem_toFinset.mp member)
    rigidAvoided := False.elim
    rigidOpen := False.elim }
  have coversName : solution.Covers before.state.assignment (.var name) := by
    intro other occurs
    rw [TypeTerm.substitute_var, TypeAssignment.image_of_unassigned mayBind.isOpen,
      TypeTerm.vars_var, List.mem_singleton] at occurs
    exact .inr (Finset.mem_insert.mpr (.inl occurs))
  have coversType : solution.Covers before.state.assignment type.toTerm := by
    intro other occurs
    rw [← TypeAssignment.toTerm_apply] at occurs
    exact .inr (Finset.mem_insert_of_mem (List.mem_toFinset.mpr occurs))
  have nameTame := TypeTerm.tame_var_iff.mpr mayBind.avoids
  have onLeft : solution.Fits before (.subtype env (.atom (.typeVar name) refinement) type) := {
    tame := List.forall_mem_cons.mpr
      ⟨nameTame, List.forall_mem_singleton.mpr mayBind.typeTame⟩
    bound := fun _ => id
    free := False.elim
    covers := List.forall_mem_cons.mpr ⟨coversName, List.forall_mem_singleton.mpr coversType⟩
    holds := solves }
  exact ⟨solution, admits,
    List.forall_mem_cons.mpr ⟨onLeft, List.forall_mem_singleton.mpr onLeft.symm⟩, itself⟩

theorem find?_bind_of_mem (mayBind : before.MayBind env name type)
    (absent : before.state.assignment.occursIn name type = false) {other : String}
    (occurs : other ∈ (before.state.assignment.apply type).toTerm.vars) :
    (before.bind env name type).state.assignment.find? other = none := by
  have different : other ≠ name := by
    rintro rfl
    exact mayBind.tame.not_mem_vars_apply mayBind.typeTame absent occurs
  rw [before.assignment_bind, SortedMap.find?_insert_of_ne _ different]
  exact mayBind.tame.acyclic.find?_of_mem_apply occurs

theorem vars_apply_bind (mayBind : before.MayBind env name type)
    (absent : before.state.assignment.occursIn name type = false) {other : String}
    (occurs : other ∈ ((before.bind env name type).state.assignment.apply type).toTerm.vars) :
    other ∈ (before.state.assignment.apply type).toTerm.vars := by
  have notMem := mayBind.tame.not_mem_vars_apply mayBind.typeTame absent
  have longer : (before.bind env name type).Tame :=
    mayBind.tame.bind mayBind.avoids mayBind.typeTame mayBind.isOpen notMem
  have onwards := mayBind.tame.acyclic.substitute_image_insert mayBind.isOpen longer.acyclic
    type.toTerm
  rw [TypeAssignment.toTerm_apply, before.assignment_bind, onwards,
    ← TypeAssignment.toTerm_apply] at occurs
  obtain ⟨middle, inside, occurs⟩ := TypeTerm.mem_vars_substitute.mp occurs
  have isOpen := mayBind.find?_bind_of_mem absent inside
  rw [before.assignment_bind] at isOpen
  rw [TypeAssignment.image_of_unassigned isOpen, TypeTerm.vars_var, List.mem_singleton] at occurs
  exact occurs ▸ inside

theorem prepared_retry (mayBind : before.MayBind env name type)
    (absent : before.state.assignment.occursIn name type = false) :
    (before.retry env name type).Prepared where
  bound := mayBind.scope
  targets := (mayBind.tame.hereditary.apply type mayBind.typeTame).avoided
  targetsOpen _ := mayBind.find?_bind_of_mem absent

theorem exists_decompose (mayBind : before.MayBind env name type)
    (absent : before.state.assignment.occursIn name type = false) {refinement : Formula}
    {constraint : Constraint}
    (member : constraint ∈ Constraint.comparing env name refinement type) :
    ∃ part, constraint.rewriting (before.bind env name type).state.assignment =
      .decompose [part] ∧ (before.retry env name type).Poses part := by
  have longer : (before.bind env name type).Tame :=
    mayBind.tame.bind mayBind.avoids mayBind.typeTame mayBind.isOpen
      (mayBind.tame.not_mem_vars_apply mayBind.typeTame absent)
  have assigned : Constraint.isAssignedVar (before.bind env name type).state.assignment env
      (.atom (.typeVar name) refinement) = true := by
    refine Constraint.isAssignedVar_iff.mpr
      ⟨name, Environment.freeVar?_eq_some.mpr ⟨⟨refinement, rfl⟩, mayBind.isFree⟩, ?_⟩
    rw [before.assignment_bind, SortedMap.find?_insert_self]
    simp
  have boundOpen : ∀ t other,
      other ∈ ((before.bind env name type).state.assignment.apply t).toTerm.vars →
      env.isBound other = true →
      (before.bind env name type).state.assignment.find? other = none :=
    fun _ _ occurs _ => longer.acyclic.find?_of_mem_apply occurs
  have inTargets : ∀ other ∈
      ((before.bind env name type).state.assignment.apply type).toTerm.vars,
      other ∈ (before.retry env name type).targets := fun _ => mayBind.vars_apply_bind absent
  rw [Constraint.comparing, List.mem_cons, List.mem_singleton] at member
  rcases member with rfl | rfl
  all_goals refine ⟨_, if_pos (by simp [assigned]), rfl, ?_, ?_⟩
  · exact List.forall_mem_cons.mpr ⟨boundOpen _, List.forall_mem_singleton.mpr (boundOpen _)⟩
  · exact .inr inTargets
  · exact List.forall_mem_cons.mpr ⟨boundOpen _, List.forall_mem_singleton.mpr (boundOpen _)⟩
  · exact .inl inTargets

theorem exists_reconciled (mayBind : before.MayBind env name type)
    (absent : before.state.assignment.occursIn name type = false) {refinement : Formula}
    {constraint : Constraint}
    (member : constraint ∈ Constraint.comparing env name refinement type)
    {resumed : Workspace} (names : resumed.names = (before.bind env name type).names)
    (assignment : resumed.state.assignment = (before.bind env name type).state.assignment) :
    ∃ result after, Rewrites resumed [constraint] result after ∧
      (before.retry env name type).Reconciled result after := by
  obtain ⟨solution, admits, fits, itself⟩ := mayBind.exists_solution absent refinement
  have firstStep : Constraint.Step before.state.assignment
      (.subtype env (.atom (.typeVar name) refinement) type) (.bind name type) :=
    .bindLeft (Environment.freeVar?_eq_some.mpr ⟨⟨refinement, rfl⟩, mayBind.isFree⟩)
      mayBind.isOpen mayBind.rigid
  obtain ⟨next, leads, nextAdmits, _, _⟩ :=
    Prospect.exists_bind admits (fits _ List.mem_cons_self) firstStep absent
  have sustains : (before.retry env name type).Sustains next resumed := {
    admits := nextAdmits.congr names assignment
    fixes := fun other avoids isOpen => by
      have different : other ≠ name := by
        rintro rfl
        exact absurd isOpen (by simp [retry, before.assignment_bind])
      change (before.bind env name type).state.assignment.find? other = none at isOpen
      rw [before.assignment_bind, SortedMap.find?_insert_of_ne _ different] at isOpen
      exact (leads.agrees other avoids).trans (itself other different isOpen)
    kept := fun _ _ => by rw [assignment]; rfl }
  have wholeFits := (leads.fits constraint (fits constraint member)).congr names assignment
  obtain ⟨part, rewriting, poses⟩ := mayBind.exists_decompose absent member
  rw [← assignment] at rewriting
  have step := Constraint.step_of_rewriting rewriting
  have partFits := wholeFits.parts sustains.admits step
  obtain ⟨_, result, after, ends⟩ := next.exists_ends resumed [part] sustains.admits partFits
  have advances : before.names.issued ≤ resumed.names.issued :=
    names ▸ before.issued_le_bind env name type
  exact ⟨result, after, .decompose rewriting ends.rewrites,
    sustains.reconciled ends.rewrites (mayBind.prepared_retry absent) advances partFits
      (List.forall_mem_singleton.mpr poses)⟩

end Workspace.MayBind

/-! ## Unification -/

theorem Workspace.eq_bind_of_unify {before : Workspace} {env : Environment} {name : String}
    {type : RefinedType} {extended : TypeAssignment} {wellFormed : Constraint}
    {later : NameSupply}
    (unified : (before.state.assignment.unify env name type).run.run before.names =
      (.ok (extended, wellFormed), later)) :
    before.state.assignment.occursIn name type = false ∧
      extended = (before.bind env name type).state.assignment ∧
      wellFormed = .wellFormed env (before.copyOf env type) ∧
      later = (before.bind env name type).names := by
  rw [TypeAssignment.unify] at unified
  split at unified
  · cases unified
  · rename_i absent
    cases unified
    exact ⟨Bool.eq_false_iff.mpr absent, rfl, rfl, rfl⟩

/-- Unification gives the variable a copy that shares nothing with the type, and after that
nothing but new variables is left to be decided. If the constraint is tried again, it comes to
a good end: what is assigned are new variables, and what is put aside compares a new variable
with one that the type resolves to, which stays unassigned. -/
theorem unify_reconciles {before : Workspace} {env : Environment} {name : String}
    {type : RefinedType} {extended : TypeAssignment} {wellFormed : Constraint}
    {later : NameSupply} (mayBind : before.MayBind env name type)
    (unified : (before.state.assignment.unify env name type).run.run before.names =
      (.ok (extended, wellFormed), later)) :
    (∃ copy typeVars unknowns,
      extended = before.state.assignment.insert name copy ∧
      wellFormed = .wellFormed env copy ∧
      env.Copies type copy typeVars unknowns ∧
      NameSupply.IssuesAll Stem.typeVar before.names later typeVars ∧
      NameSupply.IssuesAll Stem.unknown before.names later unknowns) ∧
    ∀ refinement, ∀ constraint ∈ Constraint.comparing env name refinement type,
      ∀ resumed : Workspace, resumed.names = later → resumed.state.assignment = extended →
        ∃ enough deferred after,
          (∀ steps, enough ≤ steps →
            (simplify steps constraint).run.run resumed = (.ok deferred, after)) ∧
          extended.ExtendedBy after.state.assignment ∧
          (∀ other, extended.find? other = none →
            after.state.assignment.find? other ≠ none →
              before.names.Draws after.names other) ∧
          (∀ target ∈ (before.state.assignment.apply type).typeVarOccurrences,
            after.state.assignment.find? target = none) ∧
          ∀ part ∈ deferred, part.Links before.names after.names
            (before.state.assignment.apply type).typeVarOccurrences := by
  obtain ⟨absent, rfl, rfl, rfl⟩ := Workspace.eq_bind_of_unify unified
  obtain ⟨typeVars, unknowns, copies, typeVarsNew, unknownsNew⟩ :=
    env.copies_freshCopy before.names type
  refine ⟨⟨_, typeVars, unknowns, rfl, rfl, copies, typeVarsNew, unknownsNew⟩, ?_⟩
  intro refinement constraint member resumed names assignment
  obtain ⟨result, after, rewrites, ⟨last, sustains⟩, deferred, rfl, links⟩ :=
    mayBind.exists_reconciled absent member names assignment
  obtain ⟨enough, runs⟩ := rewrites.run_rewriteAll
  have kinded := (mayBind.tame.hereditary.apply type mayBind.typeTame).kinded
  rw [Skeleton.typeVarOccurrences_eq_vars kinded]
  refine ⟨enough, deferred, after, runs, assignment ▸ rewrites.extends,
    fun other isOpen assigned => ?_, fun target occurs => ?_, links⟩
  · obtain ⟨t, found⟩ := Option.ne_none_iff_exists'.mp assigned
    have isNew : ¬ before.names.Avoids other := fun avoids =>
      assigned ((sustains.kept other avoids).trans isOpen)
    exact NameSupply.draws_of_avoids isNew (sustains.admits.tame.keys other t found)
  · have prepared := mayBind.prepared_retry absent
    exact (sustains.kept target (prepared.targets target occurs)).trans
      (prepared.targetsOpen target occurs)

def boxAssigned : Workspace where
  names := {}
  state :=
    let box : RefinedType := .scalar (.data "Box") [.atom (.typeVar "c") .top] .top
    { assignment := SortedMap.insert ∅ "b" box }

def pairOfAssigned : RefinedType :=
  .scalar (.data "Pair") [.atom (.typeVar "b") .top, .atom .int .top] .top

theorem boxAssigned_mayBind : boxAssigned.MayBind ∅ "a" pairOfAssigned := by
  have avoids : ∀ name ∈ ["a", "b", "c"], boxAssigned.names.Avoids name :=
    NameSupply.forall_avoids (by decide) _
  simp only [List.mem_cons, List.not_mem_nil, or_false, forall_eq_or_imp, forall_eq] at avoids
  have entry : ∀ name t, boxAssigned.state.assignment.find? name = some t →
      name = "b" ∧ t = .scalar (.data "Box") [.atom (.typeVar "c") .top] .top := by
    intro name t found
    rw [boxAssigned, SortedMap.find?_insert] at found
    by_cases same : name = "b"
    · rw [if_pos same] at found
      exact ⟨same, (Option.some.inj found).symm⟩
    · rw [if_neg same, SortedMap.find?_empty] at found
      cases found
  exact {
    tame := {
      acyclic := TypeAssignment.acyclic_of_rank (fun name => if name = "b" then 1 else 0)
        fun name other ⟨t, found, occurs⟩ => by
          obtain ⟨rfl, rfl⟩ := entry name t found
          have last : other = "c" := by simpa using occurs
          subst last
          decide
      keys := fun name t found => (entry name t found).1 ▸ avoids.2.1
      types := fun name t found => by
        rw [(entry name t found).2]
        simp [avoids] }
    scope := fun _ isBound => by cases isBound
    isFree := rfl
    isOpen := rfl
    avoids := avoids.1
    rigid := rfl
    typeTame := by simp [pairOfAssigned, avoids, Skeleton.toTerm, Skeleton.toTerms] }

/-- All that is left to be decided is how new variables compare with the one in the box. -/
theorem boxAssigned_reconciles :
    ∃ extended wellFormed later,
      (boxAssigned.state.assignment.unify ∅ "a" pairOfAssigned).run.run boxAssigned.names =
        (.ok (extended, wellFormed), later) ∧
      (∃ copy typeVars unknowns, extended.find? "a" = some copy ∧
        Environment.Copies ∅ pairOfAssigned copy typeVars unknowns ∧ typeVars.Nodup) ∧
      ∀ constraint ∈ Constraint.comparing ∅ "a" .top pairOfAssigned,
        ∃ enough deferred after,
          (∀ steps, enough ≤ steps →
            (simplify steps constraint).run.run ⟨later, { assignment := extended }⟩ =
              (.ok deferred, after)) ∧
          ∀ part ∈ deferred, part.Links boxAssigned.names after.names ["c"] := by
  obtain ⟨extended, wellFormed, later, unified⟩ : ∃ extended wellFormed later,
      (boxAssigned.state.assignment.unify ∅ "a" pairOfAssigned).run.run boxAssigned.names =
        (.ok (extended, wellFormed), later) := ⟨_, _, _, rfl⟩
  obtain ⟨⟨copy, typeVars, unknowns, rfl, _, copies, new, _⟩, resumes⟩ :=
    unify_reconciles boxAssigned_mayBind unified
  refine ⟨_, _, _, unified, ⟨copy, typeVars, unknowns, SortedMap.find?_insert_self _ _ _, copies,
    new.nodup⟩, fun constraint member => ?_⟩
  obtain ⟨enough, deferred, after, runs, _, _, _, links⟩ :=
    resumes .top constraint member ⟨later, { assignment := _ }⟩ rfl rfl
  have resolved :
      (boxAssigned.state.assignment.apply pairOfAssigned).typeVarOccurrences = ["c"] := by
    decide +kernel
  exact ⟨enough, deferred, after, runs, resolved ▸ links⟩

end Inhabit
