import Inhabit.Proofs.Simplification.MostGeneral

/-! Constraints that are rewritten for ever.

The occurs check looks at one constraint at a time, and what two constraints together ask of
a variable passes it. The copies that are made on the way then ask the same of new variables,
pass after pass. What keeps the occurs check from noticing is here a color for every variable:
where the two sides of each constraint are boxes around variables of different colors, a
variable is never compared with itself in a box. -/

namespace Inhabit

/-! ## Boxes -/

def TypeTerm.boxed (datatype : String) (t : TypeTerm) : (depth : Nat) → TypeTerm
  | 0 => t
  | depth + 1 => .node (.scalar (.data datatype)) [boxed datatype t depth]

namespace TypeTerm

variable {datatype : String}

theorem substitute_boxed (image : String → TypeTerm) (t : TypeTerm) (depth : Nat) :
    (boxed datatype t depth).substitute image = boxed datatype (t.substitute image) depth := by
  induction depth with
  | zero => rfl
  | succ depth induction => rw [boxed, substitute_node, List.map_singleton, induction, boxed]

theorem vars_boxed (t : TypeTerm) (depth : Nat) : (boxed datatype t depth).vars = t.vars := by
  induction depth with
  | zero => rfl
  | succ depth induction => rw [boxed, vars_node, List.flatMap_singleton, induction]

theorem boxed_boxed (t : TypeTerm) (inner outer : Nat) :
    boxed datatype (boxed datatype t inner) outer = boxed datatype t (inner + outer) := by
  induction outer with
  | zero => rfl
  | succ outer induction => rw [boxed, induction, ← Nat.add_assoc, boxed]

end TypeTerm

def RefinedType.Boxes (datatype : String) (t : RefinedType) (name : String) : Prop :=
  ∃ depth, t.toTerm = .boxed datatype (.var name) depth

namespace RefinedType

variable {datatype name other : String} {t : RefinedType}

theorem Boxes.vars (boxes : t.Boxes datatype name) : t.toTerm.vars = [name] := by
  obtain ⟨depth, equal⟩ := boxes
  rw [equal, TypeTerm.vars_boxed, TypeTerm.vars_var]

theorem boxes_typeVar {refinement : Formula} (boxes :
    Boxes datatype (.atom (.typeVar name) refinement) other) : other = name := by
  have same := boxes.vars
  rw [Skeleton.toTerm_typeVar, TypeTerm.vars_var, List.singleton_inj] at same
  exact same.symm

theorem exists_of_toTerm_eq_box {inner : TypeTerm}
    (equal : t.toTerm = .node (.scalar (.data datatype)) [inner]) :
    ∃ u refinement, t = .scalar (.data datatype) [u] refinement ∧ u.toTerm = inner := by
  cases t with
  | function => cases equal
  | scalar base arguments refinement =>
      cases arguments with
      | nil => cases base <;> cases equal
      | cons head rest =>
          rw [Skeleton.toTerm_scalar_cons] at equal
          cases rest with
          | nil =>
              cases equal
              exact ⟨head, refinement, rfl, rfl⟩
          | cons _ _ => cases equal

theorem Boxes.of_scalar {base : BaseType} {head : RefinedType} {tail : List RefinedType}
    {refinement : Formula} {name : String}
    (boxes : Boxes datatype (.scalar base (head :: tail) refinement) name) :
    base = .data datatype ∧ tail = [] ∧ head.Boxes datatype name := by
  obtain ⟨depth, equal⟩ := boxes
  rw [Skeleton.toTerm_scalar_cons] at equal
  cases depth with
  | zero => cases equal
  | succ depth =>
      rw [TypeTerm.boxed, TypeTerm.node.injEq, TypeSymbol.scalar.injEq, List.cons.injEq,
        List.map_eq_nil_iff] at equal
      exact ⟨equal.1, equal.2.2, depth, equal.2.1⟩

theorem Boxes.exists_freshCopy (boxes : t.Boxes datatype name) {env : Environment}
    (unbound : ∀ name, env.isBound name = false) (supply : NameSupply) :
    ∃ new, ((env.freshCopy t).run supply).1.Boxes datatype new := by
  obtain ⟨depth, equal⟩ := boxes
  induction depth generalizing t supply with
  | zero =>
      cases free : env.freeVar? t with
      | none => cases (unbound name).symm.trans (Environment.isBound_of_freeVar?_eq_none free equal)
      | some other =>
          rw [env.run_freshCopy_of_free supply free]
          exact ⟨_, 0, rfl⟩
  | succ depth induction =>
      obtain ⟨inner, refinement, rfl, innerEqual⟩ := exists_of_toTerm_eq_box equal
      obtain ⟨new, innerDepth, copied⟩ := induction supply innerEqual
      rw [env.run_freshCopy_scalar supply rfl, Environment.run_freshCopies_cons]
      refine ⟨new, innerDepth + 1, ?_⟩
      rw [Skeleton.toTerm_scalar_cons, copied]
      rfl

end RefinedType

/-! ## Colors -/

section Colors

variable {datatype : String} {color : String → Bool}

/-- Every variable is assigned boxes around one of the same color. -/
def TypeAssignment.Colored (datatype : String) (color : String → Bool)
    (assignment : TypeAssignment) : Prop :=
  ∀ name t, assignment.find? name = some t →
    ∃ last, RefinedType.Boxes datatype t last ∧ color last = color name

theorem RefinedType.Boxes.instantiate {t : RefinedType} {name : String}
    (boxes : t.Boxes datatype name) (sorts : SortAssignment)
    {image : String → Option RefinedType}
    (images : ∀ other u, image other = some u →
      ∃ last, u.Boxes datatype last ∧ color last = color other) :
    ∃ last, (t.instantiate sorts image).Boxes datatype last ∧ color last = color name := by
  obtain ⟨depth, equal⟩ := boxes
  cases found : image name with
  | none =>
      refine ⟨name, ⟨depth, ?_⟩, rfl⟩
      rw [toTerm_instantiate, equal, TypeTerm.substitute_boxed, TypeTerm.substitute_var,
        imageTerm, found]
      rfl
  | some u =>
      obtain ⟨last, ⟨inner, inside⟩, same⟩ := images name u found
      refine ⟨last, ⟨inner + depth, ?_⟩, same⟩
      rw [toTerm_instantiate, equal, TypeTerm.substitute_boxed, TypeTerm.substitute_var,
        imageTerm, found, ← TypeTerm.boxed_boxed, ← inside]
      rfl

theorem TypeAssignment.Colored.apply {assignment : TypeAssignment}
    (colored : assignment.Colored datatype color) {t : RefinedType} {name : String}
    (boxes : t.Boxes datatype name) :
    ∃ last, (assignment.apply t).Boxes datatype last ∧ color last = color name := by
  refine boxes.instantiate _ (forall_resolveWithin _ (fun name assigned found image images => ?_) _)
  obtain ⟨last, inner, same⟩ := colored name assigned found
  obtain ⟨further, whole, also⟩ := inner.instantiate assignment.sorts images
  exact ⟨further, whole, also.trans same⟩

namespace Constraint

/-- The two sides are boxes around variables of different colors. Boxes whose arguments have
been compared are left without any. -/
def Contrasts (datatype : String) (color : String → Bool) : Constraint → Prop
  | .subtype _ left right =>
      (∃ first second, left.Boxes datatype first ∧ right.Boxes datatype second ∧
        color first ≠ color second) ∨
      left.toTerm = .node (.scalar (.data datatype)) [] ∧
        right.toTerm = .node (.scalar (.data datatype)) []
  | .wellFormed _ _ | .wellFormedGuard _ _ => True

variable {constraint : Constraint} {assignment : TypeAssignment}

theorem Contrasts.exists_holdsUnder (contrasts : constraint.Contrasts datatype color) :
    ∃ unifier, constraint.HoldsUnder unifier := by
  cases constraint with
  | wellFormed | wellFormedGuard => exact ⟨.var, trivial⟩
  | subtype env left right =>
      rcases contrasts with ⟨first, second, ⟨depth, isLeft⟩, ⟨other, isRight⟩, different⟩ | bare
      · have apart : second ≠ first := fun same => different (same ▸ rfl)
        refine ⟨fun name => if name = first then .boxed datatype (.constant first) other
          else .boxed datatype (.constant first) depth, ?_⟩
        rw [HoldsUnder, isLeft, isRight, TypeTerm.substitute_boxed, TypeTerm.substitute_boxed,
          TypeTerm.substitute_var, TypeTerm.substitute_var, if_pos rfl, if_neg apart,
          TypeTerm.boxed_boxed, TypeTerm.boxed_boxed, Nat.add_comm]
      · exact ⟨.var, by rw [HoldsUnder, bare.1, bare.2]⟩

theorem Contrasts.congr {later : String → Bool} (contrasts : constraint.Contrasts datatype color)
    (agrees : ∀ t ∈ constraint.types, ∀ name ∈ t.toTerm.vars, later name = color name) :
    constraint.Contrasts datatype later := by
  cases constraint with
  | wellFormed | wellFormedGuard => trivial
  | subtype env left right =>
      refine contrasts.imp_left ?_
      rintro ⟨first, second, isLeft, isRight, different⟩
      have firstSame := agrees left (by simp [types]) first (by simp [isLeft.vars])
      have secondSame := agrees right (by simp [types]) second (by simp [isRight.vars])
      exact ⟨first, second, isLeft, isRight, by rwa [firstSame, secondSame]⟩

theorem Contrasts.of_bind (contrasts : constraint.Contrasts datatype color) {name : String}
    {type : RefinedType} (step : constraint.Step assignment (.bind name type)) :
    ∃ other, type.Boxes datatype other ∧ color other ≠ color name := by
  cases step with
  | bindLeft isLeft =>
      obtain ⟨⟨_, rfl⟩, _⟩ := Environment.freeVar?_eq_some.mp isLeft
      rcases contrasts with ⟨first, second, left, right, different⟩ | ⟨equal, _⟩
      · rw [RefinedType.boxes_typeVar left] at different
        exact ⟨second, right, different.symm⟩
      · cases equal
  | bindRight isRight =>
      obtain ⟨⟨_, rfl⟩, _⟩ := Environment.freeVar?_eq_some.mp isRight
      rcases contrasts with ⟨first, second, left, right, different⟩ | ⟨_, equal⟩
      · rw [RefinedType.boxes_typeVar right] at different
        exact ⟨first, left, different⟩
      · cases equal

theorem Contrasts.parts (contrasts : constraint.Contrasts datatype color)
    (colored : assignment.Colored datatype color) {parts : List Constraint}
    (step : constraint.Step assignment (.decompose parts)) :
    ∀ part ∈ parts, part.Contrasts datatype color := by
  cases step with
  | applySubtype env left right =>
      refine List.forall_mem_singleton.mpr ?_
      rcases contrasts with ⟨first, second, isLeft, isRight, different⟩ | ⟨isLeft, isRight⟩
      · obtain ⟨firstLast, firstBoxes, firstSame⟩ := colored.apply isLeft
        obtain ⟨secondLast, secondBoxes, secondSame⟩ := colored.apply isRight
        exact .inl ⟨firstLast, secondLast, firstBoxes, secondBoxes,
          by rwa [firstSame, secondSame]⟩
      · refine .inr ⟨?_, ?_⟩
        · rw [TypeAssignment.toTerm_apply, isLeft, TypeTerm.substitute_node, List.map_nil]
        · rw [TypeAssignment.toTerm_apply, isRight, TypeTerm.substitute_node, List.map_nil]
  | decomposeScalars env base firstHead secondHead refinement other =>
      rcases contrasts with ⟨first, second, isLeft, isRight, different⟩ | ⟨equal, _⟩
      · obtain ⟨rfl, rfl, firstInner⟩ := isLeft.of_scalar
        obtain ⟨_, rfl, secondInner⟩ := isRight.of_scalar
        exact List.forall_mem_cons.mpr ⟨.inl ⟨first, second, firstInner, secondInner, different⟩,
          List.forall_mem_singleton.mpr (.inr ⟨rfl, rfl⟩)⟩
      · rw [Skeleton.toTerm_scalar_cons] at equal
        cases equal
  | decomposeFunctions =>
      rcases contrasts with ⟨first, _, ⟨depth, equal⟩, _⟩ | ⟨equal, _⟩
      · cases depth <;> cases equal
      · cases equal
  | applyWellFormed => exact List.forall_mem_singleton.mpr trivial
  | decomposeFunction =>
      exact List.forall_mem_cons.mpr ⟨trivial, List.forall_mem_singleton.mpr trivial⟩
  | decomposeScalar env base head tail refinement =>
      refine List.forall_mem_append.mpr ⟨?_, List.forall_mem_singleton.mpr trivial⟩
      exact List.forall_mem_map.mpr fun _ _ => trivial

end Constraint

end Colors

/-! ## Runs -/

namespace Workspace

variable {datatype : String} {color : String → Bool} {workspace : Workspace}

structure Colored (datatype : String) (color : String → Bool) (workspace : Workspace) : Prop where
  tame : workspace.Tame
  assigned : workspace.state.assignment.Colored datatype color

theorem Colored.congr (colored : workspace.Colored datatype color) {other : Workspace}
    (names : other.names = workspace.names)
    (assignment : other.state.assignment = workspace.state.assignment) :
    other.Colored datatype color :=
  ⟨colored.tame.congr names assignment, assignment ▸ colored.assigned⟩

/-- A constraint that cannot fail in a colored workspace. -/
structure Alternates (datatype : String) (color : String → Bool) (workspace : Workspace)
    (constraint : Constraint) : Prop where
  tame : constraint.Tame workspace.names
  unbound : ∀ name, constraint.env.isBound name = false
  contrasts : constraint.Contrasts datatype color

variable {constraint : Constraint}

theorem Alternates.later {later : String → Bool} {other : Workspace}
    (alternates : workspace.Alternates datatype color constraint)
    (advances : workspace.names.issued ≤ other.names.issued)
    (agrees : ∀ name, workspace.names.Avoids name → later name = color name) :
    other.Alternates datatype later constraint where
  tame := alternates.tame.later advances
  unbound := alternates.unbound
  contrasts := alternates.contrasts.congr fun t member name occurs =>
    agrees name ((alternates.tame t member).avoided name occurs)

theorem Alternates.parts (alternates : workspace.Alternates datatype color constraint)
    (colored : workspace.Colored datatype color) {parts : List Constraint}
    (step : constraint.Step workspace.state.assignment (.decompose parts)) :
    ∀ part ∈ parts, workspace.Alternates datatype color part := by
  have tame := colored.tame.hereditary.inherits.parts step alternates.tame
  have contrasts := alternates.contrasts.parts colored.assigned step
  intro part member
  refine ⟨tame part member, fun name => ?_, contrasts part member⟩
  rw [step.parts_isBound part member]
  exact alternates.unbound name

theorem Alternates.no_mismatch (alternates : workspace.Alternates datatype color constraint) :
    ¬ constraint.Step workspace.state.assignment .mismatch := by
  obtain ⟨unifier, holds⟩ := alternates.contrasts.exists_holdsUnder
  refine holds.no_mismatch fun _ _ name _ isBound => ?_
  cases (alternates.unbound name).symm.trans isBound

/-- A variable does not occur in what is to be bound to it: the colors differ. -/
theorem Alternates.no_occurrence (alternates : workspace.Alternates datatype color constraint)
    (colored : workspace.Colored datatype color) {name : String} {type : RefinedType}
    (step : constraint.Step workspace.state.assignment (.bind name type)) :
    workspace.state.assignment.occursIn name type = false := by
  obtain ⟨other, boxes, different⟩ := alternates.contrasts.of_bind step
  obtain ⟨last, applied, same⟩ := colored.assigned.apply boxes
  have kinded := (colored.tame.hereditary.apply type
    (alternates.tame type step.binds.member)).kinded
  rw [Bool.eq_false_iff, ne_eq, TypeAssignment.occursIn_iff kinded, applied.vars,
    List.mem_singleton]
  rintro rfl
  exact different same.symm

theorem Alternates.exists_bind (alternates : workspace.Alternates datatype color constraint)
    (colored : workspace.Colored datatype color) {name : String} {type : RefinedType}
    (step : constraint.Step workspace.state.assignment (.bind name type)) :
    ∃ later : String → Bool,
      (∀ other, workspace.names.Avoids other → later other = color other) ∧
      (workspace.bind constraint.env name type).Colored datatype later := by
  obtain ⟨other, boxes, _⟩ := alternates.contrasts.of_bind step
  obtain ⟨new, copied⟩ := boxes.exists_freshCopy alternates.unbound workspace.names
  have drawn : workspace.names.Draws (workspace.bind constraint.env name type).names new := by
    have occurs : new ∈ ((constraint.env.freshCopy type).run workspace.names).1.toTerm.vars := by
      rw [copied.vars]
      exact List.mem_singleton_self new
    refine (constraint.env.mem_vars_freshCopy workspace.names occurs).resolve_left ?_
    rintro ⟨isBound, _⟩
    cases (alternates.unbound new).symm.trans isBound
  have agrees : ∀ other, workspace.names.Avoids other →
      Function.update color new (color name) other = color other := by
    intro other avoids
    have apart : other ≠ new := fun same => drawn.not_avoids (same ▸ avoids)
    exact Function.update_of_ne apart _ _
  -- The variable in the copy takes the color of the one that is bound to the copy.
  refine ⟨Function.update color new (color name), agrees, ?_, ?_⟩
  · exact colored.tame.bind_of_step step alternates.tame (alternates.no_occurrence colored step)
  · intro bound t found
    rw [workspace.assignment_bind, SortedMap.find?_insert] at found
    by_cases same : bound = name
    · rw [if_pos same, Option.some_inj] at found
      have avoids : workspace.names.Avoids name := by
        obtain ⟨side, member, isVar⟩ := step.binds.side
        exact (alternates.tame side member).avoided name (by simp [isVar])
      exact ⟨new, found ▸ copied, by rw [Function.update_self, same, agrees name avoids]⟩
    · rw [if_neg same] at found
      obtain ⟨last, inner, colors⟩ := colored.assigned bound t found
      have avoidsLast : workspace.names.Avoids last :=
        (colored.tame.types bound t found).avoided last (by simp [inner.vars])
      refine ⟨last, inner, ?_⟩
      rw [agrees last avoidsLast, agrees bound (colored.tame.keys bound t found), colors]

structure Continues (datatype : String) (before : Workspace) (color : String → Bool)
    (result : Except Failure (List Constraint)) (after : Workspace) (later : String → Bool) :
    Prop where
  advances : before.names.issued ≤ after.names.issued
  agrees : ∀ name, before.names.Avoids name → later name = color name
  colored : after.Colored datatype later
  pending : ∀ constraint ∈ after.state.pending,
    constraint ∈ before.state.pending ∨ after.Alternates datatype later constraint
  deferred : ∃ deferred, result = .ok deferred ∧
    ∀ constraint ∈ deferred, after.Alternates datatype later constraint

end Workspace

section Runs

variable {datatype : String} {color : String → Bool} {before after : Workspace}
  {constraints : List Constraint}

theorem Rewrites.exists_continues {result : Except Failure (List Constraint)}
    (rewrites : Rewrites before constraints result after)
    (colored : before.Colored datatype color)
    (all : ∀ constraint ∈ constraints, before.Alternates datatype color constraint) :
    ∃ later, Workspace.Continues datatype before color result after later := by
  -- The coloring grows along the run, by the variables of the copies.
  induction rewrites generalizing color with
  | done workspace =>
      exact ⟨color, Nat.le_refl _, fun _ _ => rfl, colored, fun _ => .inl, [], rfl,
        List.forall_mem_nil _⟩
  | @decompose before after constraint parts rest result rewriting _ induction =>
      rw [List.forall_mem_cons] at all
      have step := Constraint.step_of_rewriting rewriting
      exact induction colored
        (List.forall_mem_append.mpr ⟨all.1.parts colored step, all.2⟩)
  | @bind before after constraint rest result name type rewriting absent _ induction =>
      have head := (List.forall_mem_cons.mp all).1
      have step := Constraint.step_of_rewriting rewriting
      have advances := before.issued_le_bind constraint.env name type
      obtain ⟨middle, agrees, bound⟩ := head.exists_bind colored step
      obtain ⟨later, continues⟩ := induction bound
        fun other member => (all other member).later advances agrees
      refine ⟨later, advances.trans continues.advances, fun other avoids => ?_,
        continues.colored, fun other member => ?_, continues.deferred⟩
      · exact (continues.agrees other (avoids.later advances)).trans (agrees other avoids)
      · rcases continues.pending other member with member | alternates
        · refine (List.mem_append.mp member).imp_right fun isCopy => ?_
          rw [List.mem_singleton.mp isCopy]
          refine ⟨List.forall_mem_singleton.mpr ?_, head.unbound, trivial⟩
          exact (Workspace.tame_copyOf constraint.env name
            (head.tame type step.binds.member)).later continues.advances
        · exact .inr alternates
  | @keep before after constraint rest result rewriting _ induction =>
      obtain ⟨later, continues⟩ := induction (colored.congr rfl rfl) fun other member =>
        (all other (List.mem_cons_of_mem _ member)).later (Nat.le_refl _) fun _ _ => rfl
      exact ⟨later, continues.advances, continues.agrees, continues.colored,
        continues.pending, continues.deferred⟩
  | drop rewriting _ induction => exact induction colored (List.forall_mem_cons.mp all).2
  | defer rewriting _ induction =>
      obtain ⟨later, continues⟩ := induction colored (List.forall_mem_cons.mp all).2
      obtain ⟨inner, rfl, alternate⟩ := continues.deferred
      have head := (List.forall_mem_cons.mp all).1.later continues.advances continues.agrees
      exact ⟨later, continues.advances, continues.agrees, continues.colored,
        continues.pending, _, rfl, List.forall_mem_cons.mpr ⟨head, alternate⟩⟩
  | @mismatch workspace constraint rest rewriting =>
      have step := Constraint.step_of_rewriting rewriting
      exact absurd step (List.forall_mem_cons.mp all).1.no_mismatch
  | @occurs workspace constraint name type rest rewriting present =>
      have step := Constraint.step_of_rewriting rewriting
      rw [(List.forall_mem_cons.mp all).1.no_occurrence colored step] at present
      cases present

theorem Simplifies.succeeds_of_colored {passes : Nat} {result : Except Failure Unit}
    (simplifies : Simplifies before passes result after)
    (colored : before.Colored datatype color)
    (all : ∀ constraint ∈ before.state.pending, before.Alternates datatype color constraint) :
    result = .ok () := by
  induction simplifies generalizing color with
  | fail rewrites =>
      obtain ⟨_, continues⟩ := rewrites.exists_continues (colored.congr rfl rfl)
        fun constraint member => (all constraint member).later (Nat.le_refl _) fun _ _ => rfl
      obtain ⟨_, equal, _⟩ := continues.deferred
      cases equal
  | last => rfl
  | @next before middle after deferred passes result rewrites _ _ induction =>
      obtain ⟨later, continues⟩ := rewrites.exists_continues (colored.congr rfl rfl)
        fun constraint member => (all constraint member).later (Nat.le_refl _) fun _ _ => rfl
      obtain ⟨_, equal, alternate⟩ := continues.deferred
      cases equal
      refine induction (continues.colored.congr rfl rfl) fun constraint member => ?_
      have alternates : middle.Alternates datatype later constraint := by
        rcases List.mem_append.mp member with member | member
        · exact (continues.pending constraint member).resolve_left (List.not_mem_nil)
        · exact alternate constraint member
      exact alternates.later (Nat.le_refl _) fun _ _ => rfl

/-- Constraints that nothing solves are rewritten for ever if their variables can be colored so
that the two sides of each are boxes around variables of different colors. -/
theorem simplifyAll_never_ends (datatype : String) (color : String → Bool)
    (poses : before.Poses fun _ => false)
    (assigned : before.state.assignment.Colored datatype color)
    (contrasts : ∀ constraint ∈ before.state.pending, constraint.Contrasts datatype color)
    (unsolvable : ¬ ∃ unifier,
      Unifies (fun _ => false) before.state.assignment before.state.pending unifier)
    (steps : Nat) : ((simplifyAll steps).run.run before).1 = .error .unfinished := by
  by_contra finished
  obtain ⟨passes, result, simplifies, _⟩ :=
    simplifies_of_run (Prod.eta ((simplifyAll steps).run.run before)).symm finished
  obtain rfl := simplifies.succeeds_of_colored ⟨poses.tame, assigned⟩ fun constraint member =>
    ⟨poses.pending constraint member, poses.scopes constraint member,
      contrasts constraint member⟩
  exact unsolvable ⟨_, poses.unifies_solution simplifies⟩

/-- Each of two variables is to be the other one in a box, one of them outright and the other
by way of a subtyping between the two. -/
def mutualBoxes : Workspace where
  names := {}
  state :=
    let var (name : String) : RefinedType := .atom (.typeVar name) .top
    { pending := [
        .subtype ∅ (var "a") (.scalar (.data "Box") [var "b"] .top),
        .subtype ∅ (var "b") (var "a")] }

private theorem mutualBoxes_poses : Workspace.Poses (fun _ => false) mutualBoxes := by
  have avoids : ∀ name ∈ ["a", "b"], NameSupply.Avoids {} name :=
    NameSupply.forall_avoids (by decide) _
  simp only [List.mem_cons, List.not_mem_nil, or_false, forall_eq_or_imp, forall_eq] at avoids
  refine ⟨.of_empty rfl, ?_, ?_, nofun, nofun⟩
  · simp [mutualBoxes, Constraint.Tame, Constraint.types, Skeleton.toTerm, Skeleton.toTerms,
      avoids]
  · exact List.forall_mem_cons.mpr ⟨fun _ => rfl, List.forall_mem_singleton.mpr fun _ => rfl⟩

private theorem mutualBoxes_unsolvable : ¬ ∃ unifier, Unifies (fun _ => false)
    mutualBoxes.state.assignment mutualBoxes.state.pending unifier := by
  rintro ⟨unifier, unifies⟩
  have holds := unifies.equates
  simp only [mutualBoxes, List.forall_mem_cons, TypeAssignment.applyConstraint,
    TypeAssignment.apply_empty, Constraint.HoldsUnder, Skeleton.toTerm_typeVar,
    Skeleton.toTerm_scalar_cons, TypeTerm.substitute_var, TypeTerm.substitute_node,
    List.map_cons, List.map_nil] at holds
  obtain ⟨boxed, equal, _⟩ := holds
  have sizes := congrArg TypeTerm.size boxed
  rw [equal, TypeTerm.size_node, List.map_singleton, List.sum_singleton] at sizes
  omega

theorem mutualBoxes_never_end (steps : Nat) :
    ((simplifyAll steps).run.run mutualBoxes).1 = .error .unfinished := by
  refine simplifyAll_never_ends "Box" (· = "a") mutualBoxes_poses
    (fun _ _ found => by cases found) ?_ mutualBoxes_unsolvable steps
  refine List.forall_mem_cons.mpr ⟨.inl ⟨"a", "b", ⟨0, rfl⟩, ⟨1, rfl⟩, by decide⟩, ?_⟩
  exact List.forall_mem_singleton.mpr (.inl ⟨"b", "a", ⟨0, rfl⟩, ⟨0, rfl⟩, by decide⟩)

end Runs

end Inhabit
