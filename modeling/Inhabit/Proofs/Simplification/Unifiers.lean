import Inhabit.Proofs.Simplification.Rewrites
import Inhabit.Proofs.Simplification.Steps
import Inhabit.Proofs.Unification.FreshCopy

/-! What the steps of rewriting do to the substitutions that solve the
constraints. Decomposing keeps them as they are; binding a variable makes those
that respect the longer assignment fewer, and each of the others one of them in
the new variables. -/

namespace Inhabit

namespace Constraint

/-- The substitution makes the two sides of a subtyping equal, as far as their
terms are concerned. -/
def HoldsUnder (unifier : String → TypeTerm) : Constraint → Prop
  | .subtype _ left right =>
      left.toTerm.substitute unifier = right.toTerm.substitute unifier
  | .wellFormed _ _ | .wellFormedGuard _ _ => True

end Constraint

/-! ## Decomposition -/

/-- A property of terms that the parts of a constraint inherit. -/
structure Hereditary (assignment : TypeAssignment) (property : TypeTerm → Prop) :
    Prop where
  kinded : ∀ t, property t → t.WellKinded
  argument : ∀ symbol arguments, property (.node symbol arguments) →
    ∀ t ∈ arguments, property t
  fewer : ∀ symbol arguments, property (.node symbol arguments) →
    ∀ some, some ⊆ arguments → property (.node symbol some)
  apply : ∀ t : RefinedType, property t.toTerm → property (assignment.apply t).toTerm

namespace Hereditary

variable {assignment : TypeAssignment} {property : TypeTerm → Prop}

theorem inherits (hereditary : Hereditary assignment property) :
    Inherits assignment fun t => property t.toTerm where
  scalarArgument base arguments refinement holds t member := by
    cases arguments with
    | nil => cases member
    | cons head tail =>
        rw [Skeleton.toTerm_scalar_cons] at holds
        exact hereditary.argument _ _ holds _
          (List.mem_map_of_mem (f := Skeleton.toTerm) member)
  scalarFewer base arguments refinement holds some within := by
    cases arguments with
    | nil => rwa [List.subset_nil.mp within]
    | cons head tail =>
        have proper := Skeleton.base_ne_of_wellKinded (hereditary.kinded _ holds)
        rw [Skeleton.toTerm_scalar_of_ne proper] at holds ⊢
        exact hereditary.fewer _ _ holds _ (List.map_subset _ within)
  functionArgument _ _ _ holds := hereditary.argument _ _ holds _ (by simp)
  functionResult _ _ _ holds := hereditary.argument _ _ holds _ (by simp)
  renameVar _ _ _ _ holds := by rwa [RefinedType.toTerm_renameVar]
  apply := hereditary.apply

end Hereditary

namespace Constraint

variable {assignment : TypeAssignment} {constraint : Constraint}
  {parts : List Constraint} {unifier : String → TypeTerm}

theorem Step.parts_isBound (step : constraint.Step assignment (.decompose parts)) :
    ∀ part ∈ parts, part.env.isBound = constraint.env.isBound :=
  step.parts_scope (fun env => env.isBound = constraint.env.isBound) rfl fun _ _ _ _ => rfl

private theorem substitute_scalar_tail_eq_iff (base : BaseType)
    {left right : List RefinedType} (lengths : left.length = right.length)
    (first second : Formula) :
    (Skeleton.toTerm (.scalar base left first)).substitute unifier =
        (Skeleton.toTerm (.scalar base right second)).substitute unifier ↔
      left.map (TypeTerm.substitute unifier ∘ Skeleton.toTerm) =
        right.map (TypeTerm.substitute unifier ∘ Skeleton.toTerm) := by
  cases left with
  | nil =>
      rw [List.length_nil, eq_comm, List.length_eq_zero_iff] at lengths
      rw [lengths, Skeleton.toTerm_scalar_congr base rfl first second]
      simp
  | cons _ _ =>
      cases right with
      | nil => simp at lengths
      | cons _ _ => simp

theorem Step.holdsUnder_iff (step : constraint.Step assignment (.decompose parts))
    (acyclic : assignment.Acyclic) (respects : assignment.Respects unifier) :
    constraint.HoldsUnder unifier ↔ ∀ part ∈ parts, part.HoldsUnder unifier := by
  cases step with
  | applySubtype env left right _ =>
      simp [HoldsUnder, acyclic.toTerm_apply_substitute respects]
  | decomposeScalars env base firstHead secondHead first second lengths =>
      simp [HoldsUnder, substitute_scalar_tail_eq_iff base lengths]
  | decomposeFunctions env x firstArgument firstResult y secondArgument secondResult =>
      split <;> simp [HoldsUnder, eq_comm]
  | applyWellFormed | decomposeFunction => simp [HoldsUnder]
  | decomposeScalar =>
      refine ⟨fun _ part member => ?_, fun _ => trivial⟩
      rcases List.mem_append.mp member with member | member
      · obtain ⟨_, _, rfl⟩ := List.mem_map.mp member
        trivial
      · rw [List.mem_singleton] at member
        rw [member]
        trivial

structure Binds (assignment : TypeAssignment) (constraint : Constraint) (name : String)
    (type : RefinedType) : Prop where
  isOpen : assignment.find? name = none
  free : constraint.env.isBound name = false
  rigid : constraint.env.freeVar? type = none
  member : type ∈ constraint.types
  side : ∃ t ∈ constraint.types, t.toTerm = .var name
  holdsUnder_iff : ∀ unifier, constraint.HoldsUnder unifier ↔
    unifier name = type.toTerm.substitute unifier

theorem Step.binds {name : String} {type : RefinedType}
    (step : constraint.Step assignment (.bind name type)) :
    Binds assignment constraint name type := by
  cases step with
  | bindLeft isLeft isOpen rigid =>
      obtain ⟨⟨refinement, rfl⟩, free⟩ := Environment.freeVar?_eq_some.mp isLeft
      exact ⟨isOpen, free, rigid, by simp [types], ⟨_, List.mem_cons_self, rfl⟩,
        fun _ => .rfl⟩
  | bindRight isRight isOpen rigid =>
      obtain ⟨⟨refinement, rfl⟩, free⟩ := Environment.freeVar?_eq_some.mp isRight
      exact ⟨isOpen, free, rigid, by simp [types], ⟨_, List.mem_cons_of_mem _ List.mem_cons_self, rfl⟩,
        fun _ => eq_comm⟩

end Constraint

/-! ## Workspaces in order -/

structure TypeTerm.Tame (names : NameSupply) (t : TypeTerm) : Prop where
  kinded : t.WellKinded
  avoided : ∀ name ∈ t.vars, names.Avoids name

def Constraint.Tame (names : NameSupply) (constraint : Constraint) : Prop :=
  ∀ t ∈ constraint.types, t.toTerm.Tame names

/-- The assignment has no cycles, and nothing in it is still to be handed out. -/
structure Workspace.Tame (workspace : Workspace) : Prop where
  acyclic : workspace.state.assignment.Acyclic
  keys : ∀ name t, workspace.state.assignment.find? name = some t →
    workspace.names.Avoids name
  types : ∀ name t, workspace.state.assignment.find? name = some t →
    t.toTerm.Tame workspace.names

@[simp] theorem TypeTerm.tame_var_iff {names : NameSupply} {name : String} :
    (var name).Tame names ↔ names.Avoids name :=
  ⟨fun tame => tame.avoided name (List.mem_singleton_self name),
    fun avoids => ⟨.var name, by simpa using avoids⟩⟩

@[simp] theorem TypeTerm.tame_node_iff {names : NameSupply} {symbol : TypeSymbol}
    {arguments : List TypeTerm} :
    (node symbol arguments).Tame names ↔
      (∀ name, symbol ≠ .scalar (.typeVar name)) ∧ ∀ t ∈ arguments, t.Tame names := by
  constructor
  · intro tame
    obtain ⟨proper, inner⟩ := wellKinded_node_iff.mp tame.kinded
    refine ⟨proper, fun t member => ⟨inner t member, fun name occurs => ?_⟩⟩
    refine tame.avoided name ?_
    rw [vars_node]
    exact List.mem_flatMap.mpr ⟨t, member, occurs⟩
  · rintro ⟨proper, inner⟩
    refine ⟨.node proper fun t member => (inner t member).kinded, fun name occurs => ?_⟩
    rw [vars_node] at occurs
    obtain ⟨t, member, occurs⟩ := List.mem_flatMap.mp occurs
    exact (inner t member).avoided name occurs

theorem TypeTerm.Tame.later {before after : NameSupply} {t : TypeTerm}
    (tame : t.Tame before) (advances : before.issued ≤ after.issued) : t.Tame after :=
  ⟨tame.kinded, fun name occurs => (tame.avoided name occurs).later advances⟩

theorem Constraint.Tame.later {before after : NameSupply} {constraint : Constraint}
    (tame : constraint.Tame before) (advances : before.issued ≤ after.issued) :
    constraint.Tame after :=
  fun t member => (tame t member).later advances

theorem Constraint.Tame.holdsUnder_congr {names : NameSupply} {constraint : Constraint}
    {first second : String → TypeTerm} (tame : constraint.Tame names)
    (agrees : ∀ name, names.Avoids name → second name = first name)
    (holds : constraint.HoldsUnder first) : constraint.HoldsUnder second := by
  cases constraint with
  | wellFormed | wellFormedGuard => trivial
  | subtype env left right =>
      have same : ∀ t ∈ [left, right],
          t.toTerm.substitute second = t.toTerm.substitute first := fun t member =>
        TypeTerm.substitute_congr fun name occurs =>
          agrees name ((tame t member).avoided name occurs)
      exact (same left (by simp)).trans (holds.trans (same right (by simp)).symm)

namespace Workspace

variable {workspace : Workspace}

theorem Tame.of_empty (empty : workspace.state.assignment = ∅) : workspace.Tame where
  acyclic := TypeAssignment.acyclic_of_rank (fun _ => 0) fun _ _ refers => by
    obtain ⟨_, found, _⟩ := refers
    rw [empty] at found
    cases found
  keys _ _ found := by
    rw [empty] at found
    cases found
  types _ _ found := by
    rw [empty] at found
    cases found

theorem Tame.congr {other : Workspace} (tame : workspace.Tame)
    (names : other.names = workspace.names)
    (assignment : other.state.assignment = workspace.state.assignment) : other.Tame where
  acyclic := assignment ▸ tame.acyclic
  keys := by
    rw [assignment, names]
    exact tame.keys
  types := by
    rw [assignment, names]
    exact tame.types

theorem Tame.hereditary (tame : workspace.Tame) :
    Hereditary workspace.state.assignment (TypeTerm.Tame workspace.names) where
  kinded _ holds := holds.kinded
  argument _ _ holds := (TypeTerm.tame_node_iff.mp holds).2
  fewer _ _ holds some within := by
    obtain ⟨proper, inner⟩ := TypeTerm.tame_node_iff.mp holds
    exact TypeTerm.tame_node_iff.mpr ⟨proper, fun t member => inner t (within member)⟩
  apply t holds := by
    refine ⟨tame.acyclic.wellKinded_apply (fun name type found =>
      (tame.types name type found).kinded) holds.kinded, fun name occurs => ?_⟩
    rcases tame.acyclic.mem_vars_apply occurs with inside | ⟨other, type, found, inside⟩
    · exact holds.avoided name inside
    · exact (tame.types other type found).avoided name inside

section Bind

variable {env : Environment} {name : String} {type : RefinedType}

theorem issued_le_bind (workspace : Workspace) (env : Environment) (name : String)
    (type : RefinedType) :
    workspace.names.issued ≤ (workspace.bind env name type).names.issued :=
  env.issued_le_freshCopy workspace.names type

theorem tame_copyOf (env : Environment) (name : String) (typeTame : type.toTerm.Tame workspace.names) :
    (workspace.copyOf env type).toTerm.Tame
      (workspace.bind env name type).names where
  kinded := env.wellKinded_freshCopy workspace.names typeTame.kinded
  avoided other occurs := by
    rcases env.mem_vars_freshCopy workspace.names occurs with ⟨_, inside⟩ | drawn
    · exact (typeTame.avoided other inside).later
        (workspace.issued_le_bind env name type)
    · exact drawn.avoids

theorem Tame.copy_apart (tame : workspace.Tame) (avoids : workspace.names.Avoids name)
    (isOpen : workspace.state.assignment.find? name = none)
    (absent : name ∉ (workspace.state.assignment.apply type).toTerm.vars) :
    ∀ other ∈ (workspace.copyOf env type).toTerm.vars,
      ¬ Relation.ReflTransGen workspace.state.assignment.Refers other name := by
  intro other occurs reach
  rcases env.mem_vars_freshCopy workspace.names occurs with ⟨_, inside⟩ | drawn
  · refine absent ?_
    rw [TypeAssignment.toTerm_apply, TypeTerm.mem_vars_substitute]
    exact ⟨other, inside, tame.acyclic.mem_image_of_reach reach isOpen⟩
  · rcases Relation.ReflTransGen.cases_head reach with rfl | ⟨_, ⟨t, found, _⟩, _⟩
    · exact drawn.not_avoids avoids
    · exact drawn.not_avoids (tame.keys other t found)

theorem Tame.bind (tame : workspace.Tame) (avoids : workspace.names.Avoids name)
    (typeTame : type.toTerm.Tame workspace.names)
    (isOpen : workspace.state.assignment.find? name = none)
    (absent : name ∉ (workspace.state.assignment.apply type).toTerm.vars) :
    (workspace.bind env name type).Tame where
  acyclic := tame.acyclic.insert (tame.copy_apart avoids isOpen absent)
  keys other t found := by
    have advances := workspace.issued_le_bind env name type
    rw [workspace.assignment_bind, SortedMap.find?_insert] at found
    by_cases same : other = name
    · exact same ▸ avoids.later advances
    · rw [if_neg same] at found
      exact (tame.keys other t found).later advances
  types other t found := by
    rw [workspace.assignment_bind, SortedMap.find?_insert] at found
    by_cases same : other = name
    · rw [if_pos same, Option.some_inj] at found
      exact found ▸ tame_copyOf env name typeTame
    · rw [if_neg same] at found
      exact (tame.types other t found).later (workspace.issued_le_bind env name type)

end Bind

theorem Tame.not_mem_vars_apply (tame : workspace.Tame) {name : String}
    {type : RefinedType} (typeTame : type.toTerm.Tame workspace.names)
    (absent : workspace.state.assignment.occursIn name type = false) :
    name ∉ (workspace.state.assignment.apply type).toTerm.vars := by
  intro occurs
  have kinded := (tame.hereditary.apply type typeTame).kinded
  rw [(TypeAssignment.occursIn_iff kinded).mpr occurs] at absent
  cases absent

theorem Tame.bind_of_step (tame : workspace.Tame) {constraint : Constraint}
    {name : String} {type : RefinedType}
    (step : constraint.Step workspace.state.assignment (.bind name type))
    (constraintTame : constraint.Tame workspace.names)
    (absent : workspace.state.assignment.occursIn name type = false) :
    (workspace.bind constraint.env name type).Tame := by
  obtain ⟨t, member, isVar⟩ := step.binds.side
  have avoids : workspace.names.Avoids name :=
    (constraintTame t member).avoided name (by simp [isVar])
  have typeTame := constraintTame type step.binds.member
  exact tame.bind avoids typeTame step.binds.isOpen
    (tame.not_mem_vars_apply typeTame absent)

end Workspace

end Inhabit
