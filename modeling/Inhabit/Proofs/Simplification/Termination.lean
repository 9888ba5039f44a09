import Inhabit.Proofs.Simplification.Soundness

/-! Rewriting comes to its end whenever some substitution solves the constraints.

Nothing in the constraints bounds a run: a copy brings as many new variables as the
copied type has. A substitution that solves them does. It says how large the type is
that a variable will stand for in the end, and the copy that the variable is bound
to takes a part of that for its own symbols and leaves the rest to its variables. -/

namespace Inhabit

def TypeTerm.constant (name : String) : TypeTerm :=
  .node (.scalar (.typeVar name)) []

/-- A substitution that is to solve some constraints, together with the variables
that may still be bound. The rigid variables are those that every scope binds; if
the prospect is strict, they are constants for the substitution. -/
structure Prospect (rigid : String → Prop) (strict : Prop) where
  unifier : String → TypeTerm
  names : Finset String
  constants : strict → ∀ name, rigid name → unifier name = .constant name

namespace Prospect

variable {rigid : String → Prop} {strict : Prop}

/-- The sizes that the variables will have in the end. -/
def potential (prospect : Prospect rigid strict) : Nat :=
  ∑ name ∈ prospect.names, (prospect.unifier name).size

/-- Following the assignment leads to variables that are rigid or may be bound. -/
def Covers (prospect : Prospect rigid strict) (assignment : TypeAssignment)
    (t : TypeTerm) : Prop :=
  ∀ name ∈ (t.substitute assignment.image).vars, rigid name ∨ name ∈ prospect.names

structure Fits (prospect : Prospect rigid strict) (workspace : Workspace)
    (constraint : Constraint) : Prop where
  tame : constraint.Tame workspace.names
  bound : ∀ name, rigid name → constraint.env.isBound name
  free : strict → ∀ name, constraint.env.isBound name → rigid name
  covers : ∀ t ∈ constraint.types,
    prospect.Covers workspace.state.assignment t.toTerm
  holds : constraint.HoldsUnder prospect.unifier

structure Admits (prospect : Prospect rigid strict) (workspace : Workspace) :
    Prop where
  tame : workspace.Tame
  respects : workspace.state.assignment.Respects prospect.unifier
  avoided : ∀ name ∈ prospect.names, workspace.names.Avoids name
  rigidAvoided : strict → ∀ name, rigid name → workspace.names.Avoids name
  rigidOpen : strict → ∀ name, rigid name →
    workspace.state.assignment.find? name = none

structure Leads (prospect : Prospect rigid strict) (before : Workspace)
    (next : Prospect rigid strict) (after : Workspace) : Prop where
  advances : before.names.issued ≤ after.names.issued
  agrees : ∀ name, before.names.Avoids name → next.unifier name = prospect.unifier name
  fits : ∀ constraint, prospect.Fits before constraint → next.Fits after constraint
  spends : next.potential + after.state.assignment.size ≤
    prospect.potential + before.state.assignment.size

theorem Fits.congr {prospect : Prospect rigid strict} {before after : Workspace}
    {constraint : Constraint} (fits : prospect.Fits before constraint)
    (names : after.names = before.names)
    (assignment : after.state.assignment = before.state.assignment) :
    prospect.Fits after constraint :=
  ⟨names ▸ fits.tame, fits.bound, fits.free, assignment ▸ fits.covers, fits.holds⟩

theorem Admits.congr {prospect : Prospect rigid strict} {before after : Workspace}
    (admits : prospect.Admits before) (names : after.names = before.names)
    (assignment : after.state.assignment = before.state.assignment) :
    prospect.Admits after where
  tame := admits.tame.congr names assignment
  respects := assignment ▸ admits.respects
  avoided := names ▸ admits.avoided
  rigidAvoided := names ▸ admits.rigidAvoided
  rigidOpen := assignment ▸ admits.rigidOpen

theorem Leads.of_same (prospect : Prospect rigid strict) {before after : Workspace}
    (names : after.names = before.names)
    (assignment : after.state.assignment = before.state.assignment) :
    prospect.Leads before prospect after where
  advances := names ▸ Nat.le_refl _
  agrees _ _ := rfl
  fits _ fits := fits.congr names assignment
  spends := assignment ▸ Nat.le_refl _

theorem Leads.refl (prospect : Prospect rigid strict) (workspace : Workspace) :
    prospect.Leads workspace prospect workspace := .of_same prospect rfl rfl

theorem Leads.trans {first second third : Prospect rigid strict}
    {before middle after : Workspace} (leads : first.Leads before second middle)
    (further : second.Leads middle third after) : first.Leads before third after where
  advances := leads.advances.trans further.advances
  agrees name avoids := (further.agrees name (avoids.later leads.advances)).trans
    (leads.agrees name avoids)
  fits constraint fits := further.fits constraint (leads.fits constraint fits)
  spends := further.spends.trans leads.spends

variable {prospect : Prospect rigid strict} {workspace : Workspace}
  {constraint : Constraint}

/-! ## Decomposition -/

theorem Admits.hereditary (admits : prospect.Admits workspace) :
    Hereditary workspace.state.assignment fun t =>
      t.Tame workspace.names ∧ prospect.Covers workspace.state.assignment t where
  kinded _ holds := holds.1.kinded
  argument symbol arguments holds t member := by
    refine ⟨admits.tame.hereditary.argument symbol arguments holds.1 t member,
      fun name occurs => holds.2 name ?_⟩
    rw [TypeTerm.substitute_node, TypeTerm.vars_node]
    exact List.mem_flatMap.mpr ⟨_, List.mem_map_of_mem member, occurs⟩
  fewer symbol arguments holds some within := by
    refine ⟨admits.tame.hereditary.fewer symbol arguments holds.1 some within,
      fun name occurs => holds.2 name ?_⟩
    rw [TypeTerm.substitute_node, TypeTerm.vars_node] at occurs ⊢
    obtain ⟨t, member, occurs⟩ := List.mem_flatMap.mp occurs
    exact List.mem_flatMap.mpr ⟨t, List.map_subset _ within member, occurs⟩
  apply t holds := by
    refine ⟨admits.tame.hereditary.apply t holds.1, ?_⟩
    have acyclic := admits.tame.acyclic
    rw [Covers, acyclic.toTerm_apply_substitute acyclic.respects_image]
    exact holds.2

theorem Fits.parts (fits : prospect.Fits workspace constraint)
    (admits : prospect.Admits workspace) {parts : List Constraint}
    (step : constraint.Step workspace.state.assignment (.decompose parts)) :
    ∀ part ∈ parts, prospect.Fits workspace part := by
  have terms := admits.hereditary.inherits.parts step fun t member =>
    ⟨fits.tame t member, fits.covers t member⟩
  have holds := (step.holdsUnder_iff admits.tame.acyclic admits.respects).mp fits.holds
  intro part member
  have scope := step.parts_isBound part member
  exact ⟨fun t inside => (terms part member t inside).1,
    fun name isRigid => scope ▸ fits.bound name isRigid,
    fun isStrict name isBound => fits.free isStrict name (scope ▸ isBound),
    fun t inside => (terms part member t inside).2, holds part member⟩

/-! ## Binding -/

theorem Fits.mem_names (fits : prospect.Fits workspace constraint) {name : String}
    {type : RefinedType}
    (binds : Constraint.Binds workspace.state.assignment constraint name type) :
    name ∈ prospect.names := by
  obtain ⟨t, member, isVar⟩ := binds.side
  refine (fits.covers t member name ?_).resolve_left fun isRigid => ?_
  · rw [isVar, TypeTerm.substitute_var,
      TypeAssignment.image_of_unassigned binds.isOpen]
    exact List.mem_singleton_self name
  · have bound := fits.bound name isRigid
    rw [binds.free] at bound
    cases bound

private def newVars (workspace : Workspace) (env : Environment)
    (type : RefinedType) : Finset String :=
  (workspace.copyOf env type).toTerm.vars.toFinset \ type.toTerm.vars.toFinset

private theorem mem_newVars {env : Environment} {type : RefinedType} {name : String} :
    name ∈ newVars workspace env type ↔
      name ∈ (workspace.copyOf env type).toTerm.vars ∧ name ∉ type.toTerm.vars := by
  rw [newVars, Finset.mem_sdiff, List.mem_toFinset, List.mem_toFinset]

private theorem draws_of_mem_newVars {env : Environment} {type : RefinedType}
    {name : String} (member : name ∈ newVars workspace env type) :
    workspace.names.Draws ((env.freshCopy type).run workspace.names).2 name := by
  obtain ⟨occurs, new⟩ := mem_newVars.mp member
  exact (env.mem_vars_freshCopy workspace.names occurs).resolve_left
    fun old => new old.2

/-- The new variables of a copy share less room than the copy takes. -/
private theorem sum_newVars_lt {env : Environment} {type : RefinedType}
    (rigid : env.freeVar? type = none) (unifier : String → TypeTerm) :
    ∑ name ∈ newVars workspace env type, (unifier name).size <
      ((workspace.copyOf env type).toTerm.substitute unifier).size := by
  rcases env.toTerm_freshCopy_of_rigid workspace.names rigid with
    same | ⟨symbol, arguments, composite⟩
  · have none : newVars workspace env type = ∅ := by
      refine Finset.eq_empty_of_forall_notMem fun name member => ?_
      obtain ⟨occurs, new⟩ := mem_newVars.mp member
      rw [Workspace.copyOf, same] at occurs
      exact new occurs
    rw [none, Finset.sum_empty]
    exact TypeTerm.size_pos _
  · have isNode : (workspace.copyOf env type).toTerm = .node symbol arguments := composite
    rw [isNode]
    exact TypeTerm.sum_size_lt_substitute_node unifier symbol arguments _
      fun name member => isNode ▸ (mem_newVars.mp member).1

private theorem sum_union_le (first second : Finset String) (cost : String → Nat) :
    ∑ name ∈ first ∪ second, cost name ≤
      ∑ name ∈ first, cost name + ∑ name ∈ second, cost name := by
  rw [← Finset.sum_union_inter]
  exact Nat.le_add_right _ _

/-- Replacing a variable by others that share less room lowers the potential. -/
private theorem sum_replace_lt {names new : Finset String} {name : String}
    (member : name ∈ names) {before after : String → Nat}
    (kept : ∀ other ∈ names, after other = before other)
    (room : ∑ other ∈ new, after other < before name) :
    ∑ other ∈ names.erase name ∪ new, after other < ∑ other ∈ names, before other :=
  calc ∑ other ∈ names.erase name ∪ new, after other
      ≤ ∑ other ∈ names.erase name, after other + ∑ other ∈ new, after other :=
        sum_union_le _ _ _
    _ = ∑ other ∈ names.erase name, before other + ∑ other ∈ new, after other := by
        rw [Finset.sum_congr rfl fun other within =>
          kept other (Finset.mem_of_mem_erase within)]
    _ < ∑ other ∈ names.erase name, before other + before name :=
        Nat.add_lt_add_left room _
    _ = ∑ other ∈ names, before other := Finset.sum_erase_add _ _ member

section Bind

variable {name : String} {type : RefinedType}

private theorem eq_of_mem_image_bind {env : Environment} {first second : String}
    (isOpen : workspace.state.assignment.find? first = none) (different : first ≠ name)
    (occurs : second ∈
      ((workspace.bind env name type).state.assignment.image first).vars) :
    second = first := by
  have stillOpen : (workspace.bind env name type).state.assignment.find? first = none := by
    rw [workspace.assignment_bind, SortedMap.find?_insert, if_neg different]
    exact isOpen
  rw [TypeAssignment.image_of_unassigned stillOpen] at occurs
  exact List.mem_singleton.mp occurs

private theorem covers_copy (admits : prospect.Admits workspace)
    (fits : prospect.Fits workspace constraint)
    (step : constraint.Step workspace.state.assignment (.bind name type))
    (absent : workspace.state.assignment.occursIn name type = false) :
    ∀ other ∈ ((workspace.copyOf constraint.env type).toTerm.substitute
        (workspace.bind constraint.env name type).state.assignment.image).vars,
      rigid other ∨ other ∈ prospect.names.erase name ∪
        newVars workspace constraint.env type := by
  have binds := step.binds
  have acyclic := admits.tame.acyclic
  have longer := (admits.tame.bind_of_step step fits.tame absent).acyclic
  have typeTame := fits.tame type binds.member
  have notMem := admits.tame.not_mem_vars_apply typeTame absent
  intro other occurs
  obtain ⟨middle, inCopy, occurs⟩ := TypeTerm.mem_vars_substitute.mp occurs
  rcases constraint.env.mem_vars_freshCopy workspace.names inCopy with
    ⟨_, inType⟩ | drawn
  · -- What the type leads to is unassigned and, by the occurs check, another variable.
    have onwards : (workspace.bind constraint.env name type).state.assignment.image middle =
        (workspace.state.assignment.image middle).substitute
          (workspace.bind constraint.env name type).state.assignment.image :=
      acyclic.substitute_image_insert binds.isOpen longer (.var middle)
    rw [onwards] at occurs
    obtain ⟨last, inImage, occurs⟩ := TypeTerm.mem_vars_substitute.mp occurs
    have inApplied : last ∈ (type.toTerm.substitute workspace.state.assignment.image).vars :=
      TypeTerm.mem_vars_substitute.mpr ⟨middle, inType, inImage⟩
    have different : last ≠ name := by
      rintro rfl
      rw [TypeAssignment.toTerm_apply] at notMem
      exact notMem inApplied
    have same := eq_of_mem_image_bind (acyclic.find?_of_mem_image inImage) different occurs
    rw [same]
    exact (fits.covers type binds.member last inApplied).imp_right fun member =>
      Finset.mem_union_left _ (Finset.mem_erase.mpr ⟨different, member⟩)
  · have isOpen : workspace.state.assignment.find? middle = none := by
      by_contra assigned
      obtain ⟨t, found⟩ := Option.ne_none_iff_exists'.mp assigned
      exact drawn.not_avoids (admits.tame.keys middle t found)
    have different : middle ≠ name := by
      rintro rfl
      exact drawn.not_avoids (admits.avoided middle (fits.mem_names binds))
    rw [eq_of_mem_image_bind isOpen different occurs]
    refine .inr (Finset.mem_union_right _ (mem_newVars.mpr ⟨inCopy, fun inType => ?_⟩))
    exact drawn.not_avoids (typeTame.avoided middle inType)

private theorem covers_bind (admits : prospect.Admits workspace)
    (fits : prospect.Fits workspace constraint)
    (step : constraint.Step workspace.state.assignment (.bind name type))
    (absent : workspace.state.assignment.occursIn name type = false) {t : TypeTerm}
    (covers : prospect.Covers workspace.state.assignment t) :
    ∀ other ∈ (t.substitute
        (workspace.bind constraint.env name type).state.assignment.image).vars,
      rigid other ∨ other ∈ prospect.names.erase name ∪
        newVars workspace constraint.env type := by
  have binds := step.binds
  have acyclic := admits.tame.acyclic
  have longer := (admits.tame.bind_of_step step fits.tame absent).acyclic
  intro other occurs
  rw [workspace.assignment_bind,
    acyclic.substitute_image_insert binds.isOpen longer] at occurs
  obtain ⟨middle, inApplied, occurs⟩ := TypeTerm.mem_vars_substitute.mp occurs
  by_cases same : middle = name
  · have image := longer.respects_image name _ (SortedMap.find?_insert_self _ _ _)
    rw [same, ← workspace.assignment_bind constraint.env, image] at occurs
    exact covers_copy admits fits step absent other occurs
  · obtain ⟨start, _, inImage⟩ := TypeTerm.mem_vars_substitute.mp inApplied
    rw [eq_of_mem_image_bind (acyclic.find?_of_mem_image inImage) same occurs]
    exact (covers middle inApplied).imp_right fun member =>
      Finset.mem_union_left _ (Finset.mem_erase.mpr ⟨same, member⟩)

theorem exists_bind (admits : prospect.Admits workspace)
    (fits : prospect.Fits workspace constraint)
    (step : constraint.Step workspace.state.assignment (.bind name type))
    (absent : workspace.state.assignment.occursIn name type = false) :
    ∃ next : Prospect rigid strict,
      prospect.Leads workspace next (workspace.bind constraint.env name type) ∧
      next.Admits (workspace.bind constraint.env name type) ∧
      next.potential < prospect.potential ∧
      next.Fits (workspace.bind constraint.env name type)
        (.wellFormed constraint.env (workspace.copyOf constraint.env type)) := by
  have binds := step.binds
  have typeTame := fits.tame type binds.member
  have advances := workspace.issued_le_bind constraint.env name type
  obtain ⟨unifier, agreesUndrawn, copyEqual⟩ :=
    constraint.env.exists_extension_freshCopy workspace.names typeTame.avoided
      prospect.unifier
  have agrees : ∀ other, workspace.names.Avoids other →
      unifier other = prospect.unifier other := fun other avoids =>
    agreesUndrawn other (avoids.not_draws (Nat.le_refl _))
  have member := fits.mem_names binds
  have copySize : (workspace.copyOf constraint.env type).toTerm.substitute unifier =
      prospect.unifier name :=
    copyEqual.trans ((binds.holdsUnder_iff prospect.unifier).mp fits.holds).symm
  -- The variables of the copy take the place of the one that is bound.
  let next : Prospect rigid strict := {
    unifier := unifier
    names := prospect.names.erase name ∪ newVars workspace constraint.env type
    constants := fun isStrict other isRigid =>
      (agrees other (admits.rigidAvoided isStrict other isRigid)).trans
        (prospect.constants isStrict other isRigid) }
  have falls : next.potential < prospect.potential := by
    refine sum_replace_lt member (fun other within => ?_) ?_
    · exact congrArg _ (agrees other (admits.avoided other within))
    · exact copySize ▸ sum_newVars_lt binds.rigid unifier
  have fitsNext : ∀ other, prospect.Fits workspace other →
      next.Fits (workspace.bind constraint.env name type) other := fun other otherFits =>
    ⟨otherFits.tame.later advances, otherFits.bound, otherFits.free,
      fun t inside => covers_bind admits fits step absent (otherFits.covers t inside),
      otherFits.tame.holdsUnder_congr agrees otherFits.holds⟩
  refine ⟨next, ⟨advances, agrees, fitsNext, ?_⟩, ⟨?_, ?_, ?_, ?_, ?_⟩, falls,
    ⟨?_, fits.bound, fits.free, ?_, trivial⟩⟩
  · have grown : (workspace.bind constraint.env name type).state.assignment.size =
        workspace.state.assignment.size + 1 :=
      TypeAssignment.size_insert binds.isOpen _
    omega
  · exact admits.tame.bind_of_step step fits.tame absent
  · refine (TypeAssignment.respects_insert_iff binds.isOpen).mpr ⟨?_, ?_⟩
    · intro other t found
      change unifier other = t.toTerm.substitute unifier
      rw [agrees other (admits.tame.keys other t found), admits.respects other t found]
      exact TypeTerm.substitute_congr fun inner occurs =>
        (agrees inner ((admits.tame.types other t found).avoided inner occurs)).symm
    · exact (agrees name (admits.avoided name member)).trans copySize.symm
  · intro other within
    rcases Finset.mem_union.mp within with old | new
    · exact (admits.avoided other (Finset.mem_of_mem_erase old)).later advances
    · exact (draws_of_mem_newVars new).avoids
  · exact fun isStrict other isRigid =>
      (admits.rigidAvoided isStrict other isRigid).later advances
  · intro isStrict other isRigid
    rw [workspace.assignment_bind, SortedMap.find?_insert, if_neg]
    · exact admits.rigidOpen isStrict other isRigid
    · rintro rfl
      have bound := fits.bound other isRigid
      rw [binds.free] at bound
      cases bound
  · intro t isCopy
    rw [Constraint.types, List.mem_singleton] at isCopy
    exact isCopy ▸ Workspace.tame_copyOf constraint.env name typeTame
  · intro t isCopy
    rw [Constraint.types, List.mem_singleton] at isCopy
    exact isCopy ▸ covers_copy admits fits step absent

end Bind

end Prospect

/-! ## Costs -/

namespace Constraint

/-- One step more for an assigned variable, which is followed first. -/
private def detour (assignment : TypeAssignment) (env : Environment)
    (t : RefinedType) : Nat :=
  if isAssignedVar assignment env t then 1 else 0

private theorem detour_le (assignment : TypeAssignment) (env : Environment)
    (t : RefinedType) : detour assignment env t ≤ 1 := by
  unfold detour
  split <;> omega

/-- What the decomposition of a constraint takes if no variable is bound on the
way. -/
def cost (unifier : String → TypeTerm) (assignment : TypeAssignment) :
    Constraint → Nat
  | .subtype env left right =>
      4 * (left.toTerm.substitute unifier).size - 3 +
        max (detour assignment env left) (detour assignment env right)
  | .wellFormed env type =>
      4 * (type.toTerm.substitute unifier).size - 3 + detour assignment env type
  | .wellFormedGuard _ _ => 1

theorem cost_pos (unifier : String → TypeTerm) (assignment : TypeAssignment)
    (constraint : Constraint) : 0 < constraint.cost unifier assignment := by
  cases constraint with
  | wellFormedGuard => exact Nat.one_pos
  | subtype env left right =>
      have := (left.toTerm.substitute unifier).size_pos
      simp only [cost]
      omega
  | wellFormed env type =>
      have := (type.toTerm.substitute unifier).size_pos
      simp only [cost]
      omega

variable {assignment : TypeAssignment} {constraint : Constraint}
  {unifier : String → TypeTerm}

private theorem detour_apply (acyclic : assignment.Acyclic) (env : Environment)
    (t : RefinedType) : detour assignment env (assignment.apply t) = 0 := by
  refine if_neg fun assigned => ?_
  obtain ⟨name, free, found⟩ := isAssignedVar_iff.mp assigned
  obtain ⟨⟨refinement, isVar⟩, _⟩ := Environment.freeVar?_eq_some.mp free
  refine found (acyclic.find?_of_mem_apply (t := t) ?_)
  rw [isVar]
  exact List.mem_singleton_self name

private theorem detour_scalar {base : BaseType} (proper : ∀ name, base ≠ .typeVar name)
    (env : Environment) (arguments : List RefinedType) (refinement : Formula) :
    detour assignment env (.scalar base arguments refinement) = 0 := by
  refine if_neg fun assigned => ?_
  obtain ⟨name, free, _⟩ := isAssignedVar_iff.mp assigned
  obtain ⟨⟨_, isVar⟩, _⟩ := Environment.freeVar?_eq_some.mp free
  cases isVar
  exact proper name rfl

private theorem sum_cost_arguments (unifier : String → TypeTerm)
    (assignment : TypeAssignment) (env : Environment) (arguments : List RefinedType) :
    ((arguments.map (.wellFormed env)).map (cost unifier assignment)).sum +
        2 * arguments.length ≤
      4 * (arguments.map (TypeTerm.size ∘ TypeTerm.substitute unifier ∘
        Skeleton.toTerm)).sum := by
  induction arguments with
  | nil => exact Nat.le_refl _
  | cons head tail induction =>
      have positive := (head.toTerm.substitute unifier).size_pos
      have short := detour_le assignment env head
      simp only [List.map_cons, List.sum_cons, List.length_cons, cost,
        Function.comp_apply] at induction ⊢
      omega

theorem Step.sum_cost_lt {parts : List Constraint} {names : NameSupply}
    (step : constraint.Step assignment (.decompose parts))
    (acyclic : assignment.Acyclic) (respects : assignment.Respects unifier)
    (tame : constraint.Tame names) (holds : constraint.HoldsUnder unifier) :
    (parts.map (cost unifier assignment)).sum < constraint.cost unifier assignment := by
  cases step with
  | applySubtype env left right assigned =>
      -- What is left is the same comparison with a detour less.
      have positive : 0 < max (detour assignment env left) (detour assignment env right) := by
        rcases assigned with isLeft | isRight
        · exact lt_max_of_lt_left (by simp [detour, isLeft])
        · exact lt_max_of_lt_right (by simp [detour, isRight])
      simp only [List.map_cons, List.map_nil, List.sum_cons, List.sum_nil, cost,
        detour_apply acyclic, acyclic.toTerm_apply_substitute respects]
      omega
  | decomposeScalars env base firstHead secondHead first second lengths =>
      have proper := Skeleton.base_ne_of_wellKinded (tame _ List.mem_cons_self).kinded
      have positive := (firstHead.toTerm.substitute unifier).size_pos
      have headLeft := detour_le assignment env firstHead
      have headRight := detour_le assignment env secondHead
      simp only [List.map_cons, List.map_nil, List.sum_cons, List.sum_nil, cost,
        detour_scalar proper, Skeleton.toTerm_scalar_of_ne proper,
        TypeTerm.substitute_node, TypeTerm.size_node]
      omega
  | decomposeFunctions env x firstArgument firstResult y secondArgument secondResult =>
      -- The arguments change sides, but the substitution makes both equal.
      have equal : secondArgument.toTerm.substitute unifier =
          firstArgument.toTerm.substitute unifier := by
        simp only [HoldsUnder, Skeleton.toTerm_function, TypeTerm.substitute_node,
          List.map_cons, TypeTerm.node.injEq, List.cons.injEq] at holds
        exact holds.2.1.symm
      have argumentPositive := (firstArgument.toTerm.substitute unifier).size_pos
      have resultPositive := (firstResult.toTerm.substitute unifier).size_pos
      have short := fun env t => detour_le assignment env t
      have left := short env firstArgument
      have right := short env secondArgument
      split
      all_goals
        simp only [List.map_cons, List.map_nil, List.sum_cons, List.sum_nil, cost,
          RefinedType.toTerm_renameVar, Skeleton.toTerm_function,
          TypeTerm.substitute_node, TypeTerm.size_node, equal]
      · have renamed := short (env.addVariable y secondArgument)
          (firstResult.renameVar x y firstArgument)
        have result := short (env.addVariable y secondArgument) secondResult
        omega
      · have result := short env firstResult
        have otherResult := short env secondResult
        omega
  | applyWellFormed env type assigned =>
      have one : detour assignment env type = 1 := if_pos assigned
      simp only [List.map_cons, List.map_nil, List.sum_cons, List.sum_nil, cost,
        detour_apply acyclic, acyclic.toTerm_apply_substitute respects, one]
      omega
  | decomposeScalar env base head tail refinement =>
      have proper := Skeleton.base_ne_of_wellKinded (tame _ List.mem_cons_self).kinded
      have arguments := sum_cost_arguments unifier assignment env (head :: tail)
      rw [List.map_append, List.sum_append]
      simp only [List.map_cons, List.map_nil, List.sum_cons, List.sum_nil, cost,
        List.length_cons, detour_scalar proper, Skeleton.toTerm_scalar_of_ne proper,
        TypeTerm.substitute_node, TypeTerm.size_node, List.map_map,
        Function.comp_apply] at arguments ⊢
      omega
  | decomposeFunction env x argument result =>
      have argumentPositive := (argument.toTerm.substitute unifier).size_pos
      have resultPositive := (result.toTerm.substitute unifier).size_pos
      have argumentShort := detour_le assignment env argument
      have resultShort := detour_le assignment (env.addVariable x argument) result
      simp only [List.map_cons, List.map_nil, List.sum_cons, List.sum_nil, cost,
        Skeleton.toTerm_function, TypeTerm.substitute_node, TypeTerm.size_node]
      omega

end Constraint

/-! ## No failures -/

namespace Constraint

private theorem substitute_rigid {unifier : String → TypeTerm} {env : Environment}
    {base : BaseType} {arguments : List RefinedType} {refinement : Formula}
    (isRigid : env.freeVar? (.scalar base arguments refinement) = none)
    (constants : ∀ name, Skeleton.toTerm (.scalar base arguments refinement) = .var name →
      env.isBound name → unifier name = .constant name) :
    (Skeleton.toTerm (.scalar base arguments refinement)).substitute unifier =
      .node (.scalar base) (arguments.map fun t => t.toTerm.substitute unifier) := by
  cases arguments with
  | cons head rest => simp
  | nil =>
      cases base with
      | bool | int | data _ => rfl
      | typeVar name =>
          have isVar := Skeleton.toTerm_typeVar name refinement
          exact constants name isVar (Environment.isBound_of_freeVar?_eq_none isRigid isVar)

theorem HoldsUnder.no_mismatch {unifier : String → TypeTerm} {assignment : TypeAssignment}
    {constraint : Constraint} (holds : constraint.HoldsUnder unifier)
    (constants : ∀ t ∈ constraint.types, ∀ name, t.toTerm = .var name →
      constraint.env.isBound name → unifier name = .constant name) :
    ¬ constraint.Step assignment .mismatch := by
  intro step
  cases step with
  | mismatchScalars leftRigid rightRigid different =>
      rw [types, List.forall_mem_cons, List.forall_mem_singleton] at constants
      rw [HoldsUnder, substitute_rigid leftRigid constants.1,
        substitute_rigid rightRigid constants.2, TypeTerm.node.injEq,
        TypeSymbol.scalar.injEq] at holds
      refine different ⟨holds.1, ?_⟩
      simpa using congrArg List.length holds.2
  | mismatchRight isRigid x argument result =>
      rw [types, List.forall_mem_cons] at constants
      rw [HoldsUnder, substitute_rigid isRigid constants.1, Skeleton.toTerm_function,
        TypeTerm.substitute_node, TypeTerm.node.injEq] at holds
      cases holds.1
  | mismatchLeft isRigid x argument result =>
      rw [types, List.forall_mem_cons, List.forall_mem_singleton] at constants
      rw [HoldsUnder, substitute_rigid isRigid constants.2, Skeleton.toTerm_function,
        TypeTerm.substitute_node, TypeTerm.node.injEq] at holds
      cases holds.1

end Constraint

namespace Prospect

variable {rigid : String → Prop} {strict : Prop} {prospect : Prospect rigid strict}
  {workspace : Workspace} {constraint : Constraint}

theorem Fits.no_mismatch (fits : prospect.Fits workspace constraint) (isStrict : strict) :
    ¬ constraint.Step workspace.state.assignment .mismatch :=
  fits.holds.no_mismatch fun _ _ name _ isBound =>
    prospect.constants isStrict name (fits.free isStrict name isBound)

/-- A variable is not made equal to a type that it occurs in, unless that is an assigned
variable. -/
theorem Fits.no_occurrence_of_open {name : String} {type : RefinedType}
    (fits : prospect.Fits workspace constraint) (admits : prospect.Admits workspace)
    (step : constraint.Step workspace.state.assignment (.bind name type))
    (isOpen : ∀ other, type.toTerm = .var other →
      workspace.state.assignment.find? other = none) :
    workspace.state.assignment.occursIn name type = false := by
  have binds := step.binds
  have acyclic := admits.tame.acyclic
  have applied := admits.tame.hereditary.apply type (fits.tame type binds.member)
  rw [Bool.eq_false_iff, ne_eq, TypeAssignment.occursIn_iff applied.kinded]
  intro occurs
  have equal : prospect.unifier name =
      (workspace.state.assignment.apply type).toTerm.substitute prospect.unifier :=
    ((binds.holdsUnder_iff _).mp fits.holds).trans
      (acyclic.toTerm_apply_substitute admits.respects type).symm
  refine absurd (congrArg TypeTerm.size equal)
    (Nat.ne_of_lt (TypeTerm.size_lt_substitute_of_mem occurs fun isVar => ?_))
  -- Only a bound variable could have become the variable itself, and it is unassigned.
  rw [TypeAssignment.toTerm_apply] at isVar
  cases term : type.toTerm with
  | node symbol arguments =>
      rw [term, TypeTerm.substitute_node] at isVar
      cases isVar
  | var other =>
      have bound := Environment.isBound_of_freeVar?_eq_none binds.rigid term
      rw [term, TypeTerm.substitute_var, TypeAssignment.image_of_unassigned (isOpen other term),
        TypeTerm.var.injEq] at isVar
      rw [isVar, binds.free] at bound
      cases bound

theorem Fits.no_occurrence {name : String} {type : RefinedType}
    (fits : prospect.Fits workspace constraint) (admits : prospect.Admits workspace)
    (step : constraint.Step workspace.state.assignment (.bind name type))
    (isStrict : strict) : workspace.state.assignment.occursIn name type = false := by
  refine fits.no_occurrence_of_open admits step fun other isVar => ?_
  have bound := Environment.isBound_of_freeVar?_eq_none step.binds.rigid isVar
  exact admits.rigidOpen isStrict other (fits.free isStrict other bound)

/-! ## Runs to the end -/

structure Ends (prospect : Prospect rigid strict) (before : Workspace)
    (constraints : List Constraint) (next : Prospect rigid strict)
    (result : Except Failure (List Constraint)) (after : Workspace) : Prop where
  rewrites : Rewrites before constraints result after
  leads : prospect.Leads before next after
  admits : next.Admits after
  pending : ∀ constraint ∈ after.state.pending,
    constraint ∈ before.state.pending ∨ next.Fits after constraint
  deferred : ∀ deferred, result = .ok deferred →
    ∀ constraint ∈ deferred, next.Fits after constraint
  succeeds : strict → ∃ deferred, result = .ok deferred

/-- Constraints that a substitution solves are rewritten to the end. -/
theorem exists_ends (prospect : Prospect rigid strict) (before : Workspace)
    (constraints : List Constraint) (admits : prospect.Admits before)
    (fits : ∀ constraint ∈ constraints, prospect.Fits before constraint) :
    ∃ next result after, prospect.Ends before constraints next result after := by
  match constraints, fits with
  | [], _ =>
      exact ⟨prospect, .ok [], before, .done before, .refl _ _, admits,
        fun _ member => .inl member, by rintro _ ⟨⟩; simp, fun _ => ⟨[], rfl⟩⟩
  | constraint :: rest, fits =>
      have headFits := fits constraint List.mem_cons_self
      have restFits : ∀ other ∈ rest, prospect.Fits before other :=
        fun other member => fits other (List.mem_cons_of_mem _ member)
      cases rewriting : constraint.rewriting before.state.assignment with
      | decompose parts =>
          have step := Constraint.step_of_rewriting rewriting
          have partsFit := headFits.parts admits step
          -- The potential stays as it is, and the cost falls.
          have cheaper := step.sum_cost_lt admits.tame.acyclic admits.respects
            headFits.tame headFits.holds
          obtain ⟨next, result, after, ends⟩ := exists_ends prospect before (parts ++ rest)
            admits fun part member => (List.mem_append.mp member).elim (partsFit part)
              (restFits part)
          exact ⟨next, result, after, .decompose rewriting ends.rewrites, ends.leads,
            ends.admits, ends.pending, ends.deferred, ends.succeeds⟩
      | bind name type =>
          have step := Constraint.step_of_rewriting rewriting
          cases occurs : before.state.assignment.occursIn name type with
          | true =>
              refine ⟨prospect, _, before, .occurs rest rewriting occurs, .refl _ _, admits,
                fun _ member => .inl member, nofun, fun isStrict => ?_⟩
              rw [headFits.no_occurrence admits step isStrict] at occurs
              cases occurs
          | false =>
              -- The potential falls, whatever becomes of the cost.
              obtain ⟨middle, leads, middleAdmits, falls, copyFits⟩ :=
                exists_bind admits headFits step occurs
              obtain ⟨next, result, after, ends⟩ := exists_ends middle
                (before.bind constraint.env name type) (constraint :: rest) middleAdmits
                fun other member => leads.fits other (fits other member)
              refine ⟨next, result, after, .bind rewriting occurs ends.rewrites,
                leads.trans ends.leads, ends.admits, fun other member => ?_,
                ends.deferred, ends.succeeds⟩
              rcases ends.pending other member with member | otherFits
              · rcases List.mem_append.mp member with member | member
                · exact .inl member
                · rw [List.mem_singleton] at member
                  exact .inr (member ▸ ends.leads.fits _ copyFits)
              · exact .inr otherFits
      | keep =>
          obtain ⟨next, result, after, ends⟩ := exists_ends prospect
            (before.addSimple [constraint]) rest (admits.congr rfl rfl)
            fun other member => (restFits other member).congr rfl rfl
          have same : prospect.Leads before prospect (before.addSimple [constraint]) :=
            .of_same prospect rfl rfl
          exact ⟨next, result, after, .keep rewriting ends.rewrites,
            same.trans ends.leads, ends.admits, ends.pending, ends.deferred,
            ends.succeeds⟩
      | drop =>
          obtain ⟨next, result, after, ends⟩ := exists_ends prospect before rest admits
            restFits
          exact ⟨next, result, after, .drop rewriting ends.rewrites, ends.leads,
            ends.admits, ends.pending, ends.deferred, ends.succeeds⟩
      | defer =>
          obtain ⟨next, result, after, ends⟩ := exists_ends prospect before rest admits
            restFits
          refine ⟨next, result.map (constraint :: ·), after,
            .defer rewriting ends.rewrites, ends.leads, ends.admits, ends.pending, ?_, ?_⟩
          · intro deferred equal
            cases result with
            | error _ => cases equal
            | ok inner =>
                cases equal
                exact List.forall_mem_cons.mpr
                  ⟨ends.leads.fits _ headFits, ends.deferred inner rfl⟩
          · intro isStrict
            obtain ⟨inner, rfl⟩ := ends.succeeds isStrict
            exact ⟨constraint :: inner, rfl⟩
      | mismatch =>
          have step := Constraint.step_of_rewriting rewriting
          exact ⟨prospect, _, before, .mismatch rest rewriting, .refl _ _, admits,
            fun _ member => .inl member, nofun,
            fun isStrict => absurd step (headFits.no_mismatch isStrict)⟩
termination_by (prospect.potential, (constraints.map
  (Constraint.cost prospect.unifier before.state.assignment)).sum)
decreasing_by
  · simp only [List.map_append, List.sum_append, List.map_cons, List.sum_cons]
    exact .right _ (Nat.add_lt_add_right cheaper _)
  · exact .left _ _ falls
  all_goals
    simp only [List.map_cons, List.sum_cons]
    exact .right _ (Nat.lt_add_of_pos_left (Constraint.cost_pos _ _ constraint))

end Prospect

end Inhabit
