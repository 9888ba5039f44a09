import Inhabit.Proofs.Enumeration.Checks
import Inhabit.Proofs.Simplification.Decomposition

/-! Checks that a type has a shape: the strongest type of its own shape against the weakest
type of the shape it is to have. The arguments of functions are compared the other way
round, but there the strongest and the weakest type have changed places as well, and all
that is left to show is that falsehood implies truth. -/

namespace Inhabit

open Skeleton

/-! ## Shapes up to the names of arguments -/

namespace Skeleton

mutual

def anonymous : Skeleton ρ → Skeleton ρ
  | .scalar base arguments refinement => .scalar base (anonymousAll arguments) refinement
  | .function _ argument result => .function "" (anonymous argument) (anonymous result)
termination_by structural t => t

def anonymousAll : List (Skeleton ρ) → List (Skeleton ρ)
  | [] => []
  | t :: rest => anonymous t :: anonymousAll rest
termination_by structural ts => ts

end

theorem anonymousAll_eq_map (ts : List (Skeleton ρ)) : anonymousAll ts = ts.map anonymous := by
  induction ts with
  | nil => rfl
  | cons _ _ induction => exact congrArg (_ :: ·) induction

theorem toTerm_anonymous (t : Skeleton ρ) : t.anonymous.toTerm = t.toTerm := by
  induction t using Skeleton.induction with
  | scalar base arguments refinement induction =>
      rw [anonymous, anonymousAll_eq_map]
      apply toTerm_scalar_congr
      rw [List.map_map]
      exact List.map_congr_left induction
  | function name argument result first second =>
      rw [anonymous, toTerm_function, toTerm_function, first, second]

end Skeleton

theorem Shape.anonymous_eq_iff {p q : Shape} :
    p.anonymous = q.anonymous ↔ p.toTerm = q.toTerm := by
  constructor
  · intro same
    rw [← toTerm_anonymous, same, toTerm_anonymous]
  · intro same
    induction p using Skeleton.induction generalizing q with
    | function name argument result first second =>
        obtain ⟨_, _, _, rfl, arguments, results⟩ := toTerm_eq_function same.symm
        rw [anonymous, anonymous, first arguments.symm, second results.symm]
    | scalar base arguments _ induction =>
        obtain ⟨others, _, rfl, terms⟩ := toTerm_eq_scalar same.symm
        have inside : arguments.map anonymous = others.map anonymous := by
          clear same
          induction arguments generalizing others with
          | nil =>
              rw [List.map_eq_nil_iff.mp terms]
          | cons t rest restInduction =>
              obtain ⟨other, otherRest, rfl, head, tail⟩ := List.map_eq_cons_iff.mp terms
              rw [List.forall_mem_cons] at induction
              rw [List.map_cons, List.map_cons, induction.1 head.symm,
                restInduction induction.2 otherRest tail]
        rw [anonymous, anonymous, anonymousAll_eq_map, anonymousAll_eq_map, inside]

theorem Shape.substitute_refine (substitution : Substitution) (weakest : Bool) (s : Shape) :
    (s.refine weakest).substitute substitution = s.refine weakest := by
  induction s using Skeleton.induction generalizing substitution weakest with
  | function name argument result first second =>
      rw [refine, RefinedType.substitute, first, second]
  | scalar base arguments _ induction =>
      rw [refine, RefinedType.substitute_scalar, RefinedType.refineAll_eq_map, List.map_map]
      congr 1
      exact List.map_congr_left fun t member => induction t member substitution weakest

theorem Shape.renameVar_refine (weakest : Bool) (s : Shape) (old new : String)
    (oldType : RefinedType) :
    RefinedType.renameVar (s.refine weakest) old new oldType = s.refine weakest := by
  cases oldType with
  | scalar base _ _ => exact substitute_refine _ weakest s
  | function _ _ _ => rfl

/-! ## What is left of a check -/

/-- Falsehood is to imply truth, at a base type that is no free variable. -/
inductive Constraint.Vacuous : Constraint → Prop where
  | falsehood {env : Environment} {base : BaseType}
      (rigid : ∀ refinement, env.freeVar? (.atom base refinement) = none) :
      Vacuous (.subtype env (.atom base .bottom) (.atom base .top))

namespace Decomposition

theorem mem_atoms_andThen {first second : Decomposition} {constraint : Constraint}
    (member : constraint ∈ (first.andThen second).atoms) :
    constraint ∈ first.atoms ∨ constraint ∈ second.atoms := by
  cases stops : first.mismatch with
  | some _ =>
      rw [andThen_of_mismatch stops] at member
      exact .inl member
  | none =>
      rw [andThen_of_complete stops] at member
      exact List.mem_append.mp member

theorem exists_of_mem_ofArguments {env : Environment} {arguments others : List RefinedType}
    {constraint : Constraint} (member : constraint ∈ (ofArguments env arguments others).atoms) :
    ∃ t other, (t, other) ∈ arguments.zip others ∧
      constraint ∈ (ofSubtype env t other).atoms := by
  induction arguments generalizing others with
  | nil =>
      rw [ofArguments_nil] at member
      cases member
  | cons t rest induction =>
      cases others with
      | nil =>
          rw [ofArguments] at member
          · cases member
          · simp
      | cons other otherRest =>
          rw [ofArguments] at member
          rcases mem_atoms_andThen member with member | member
          · exact ⟨t, other, List.mem_cons_self, member⟩
          · obtain ⟨t, other, inside, member⟩ := induction member
            exact ⟨t, other, List.mem_cons_of_mem _ inside, member⟩

theorem vacuous_of_mem_atoms {env : Environment} {left right : RefinedType}
    (leftRigid : env.Rigid left) (rightRigid : env.Rigid right) {p q : Shape}
    (strongest : left = p.refine false) (weakest : right = q.refine true) :
    ∀ constraint ∈ (ofSubtype env left right).atoms, constraint.Vacuous := by
  induction env, left, right using RefinedType.comparison_induction generalizing p q with
  | apart env left right different =>
      rw [ofSubtype_of_head_ne different]
      exact List.forall_mem_nil _
  | functions env x argument result y otherArgument otherResult arguments results =>
      obtain ⟨leftArgument, leftResult⟩ := Environment.rigid_function.mp leftRigid
      obtain ⟨rightArgument, rightResult⟩ := Environment.rigid_function.mp rightRigid
      cases p with
      | scalar => cases strongest
      | function =>
      cases q with
      | scalar => cases weakest
      | function =>
      cases strongest
      cases weakest
      rw [ofSubtype]
      -- In the place of an argument the strongest type of a shape is the weakest one, so that
      -- the sides may be exchanged there.
      intro constraint member
      rcases mem_atoms_andThen member with member | member
      · exact arguments rightArgument leftArgument rfl rfl constraint member
      · refine results ?_ (Environment.rigid_addFormal.mpr rightResult)
          (Shape.renameVar_refine ..) rfl constraint member
        rw [Environment.rigid_addFormal, Environment.rigid_renameVar]
        exact leftResult
  | scalars env base arguments otherArguments refinement other each =>
      obtain ⟨bound, leftInner⟩ := Environment.rigid_scalar.mp leftRigid
      obtain ⟨_, rightInner⟩ := Environment.rigid_scalar.mp rightRigid
      cases p with
      | function => cases strongest
      | scalar _ shapes _ =>
      cases q with
      | function => cases weakest
      | scalar _ others _ =>
      cases strongest
      cases weakest
      rw [ofSubtype_scalars _ _ each.length_eq]
      intro constraint member
      rcases mem_atoms_andThen member with member | member
      · obtain ⟨t, other, inside, member⟩ := exists_of_mem_ofArguments member
        obtain ⟨left, right⟩ := List.of_mem_zip inside
        have compared := (List.forall₂_iff_zip.mp each).2 inside
        simp only [RefinedType.refineAll_eq_map, List.zip_map, List.mem_map, Prod.map,
          Prod.mk.injEq] at inside
        obtain ⟨⟨p, q⟩, _, strongest, weakest⟩ := inside
        exact compared (leftInner t left) (rightInner other right) strongest.symm weakest.symm
          constraint member
      · rw [List.mem_singleton.mp member]
        have rigid : ∀ refinement, env.freeVar? (.atom base refinement) = none :=
          fun _ => Environment.freeVar?_of_rigid
            (Environment.rigid_scalar.mpr ⟨bound, List.forall_mem_nil _⟩)
        exact .falsehood rigid

end Decomposition

/-! ## Lowering what is left -/

namespace Search

variable {σ : Type} (setting : Setting σ) (memory : Memory σ)

theorem run_lower_of_vacuous {constraint : Constraint} (vacuous : constraint.Vacuous) :
    lower constraint setting memory = (.ok (), memory) := by
  cases vacuous with
  | falsehood rigid =>
      unfold lower
      simp only [rigid]
      rfl

theorem run_forM_of_vacuous {atoms : List Constraint}
    (vacuous : ∀ constraint ∈ atoms, constraint.Vacuous) :
    atoms.forM lower setting memory = (.ok (), memory) := by
  rw [List.forM_eq_forM]
  induction atoms with
  | nil => rfl
  | cons constraint rest induction =>
      rw [List.forall_mem_cons] at vacuous
      rw [List.forM_cons, run_bind, run_lower_of_vacuous setting memory vacuous.1]
      exact induction vacuous.2

theorem run_lowerAll_addSimple {atoms : List Constraint}
    (vacuous : ∀ constraint ∈ atoms, constraint.Vacuous) :
    lowerAll setting { memory with state := memory.state.addSimple atoms } =
      lowerAll setting memory := by
  let start : Memory σ := { memory with state := { memory.state with simple := [] } }
  change (memory.state.simple ++ atoms).forM lower setting start =
    memory.state.simple.forM lower setting start
  rw [List.forM_eq_forM, List.forM_append, run_bind]
  cases (forM memory.state.simple lower : Search σ Unit) setting start with
  | mk result after =>
      cases result with
      | error interrupt => rfl
      | ok value => exact run_forM_of_vacuous setting after vacuous

theorem run_lowerAll_of_nil (none : memory.state.simple = []) :
    lowerAll setting memory = (.ok (), memory) := by
  obtain ⟨state, names, solver⟩ := memory
  obtain ⟨pending, simple, _, _, _, _⟩ := state
  cases none
  rfl

end Search

/-! ## Results -/

/-- Simplify what says that a type of the first shape has the second shape. -/
def Search.checkShape (env : Environment) (p q : Shape) : Search σ (List Constraint) :=
  rewrite (simplify · (.subtype env p.refineBottom q.refineTop))

/-- A type has a shape exactly if its own shape is that one up to the names of arguments. The
check that it has leaves nothing behind: no clause, no request for a qualifier space and no
constraint. -/
theorem Search.checkShape_constrains_nothing {env : Environment} {p q : Shape}
    (leftBound : ∀ name ∈ p.typeVarOccurrences, env.isBound name = true)
    (rightBound : ∀ name ∈ q.typeVarOccurrences, env.isBound name = true)
    {σ : Type} (memory : Memory σ) :
    ∃ enough, ∀ setting : Setting σ, enough ≤ setting.steps →
      ((∃ deferred after, checkShape env p q setting memory = (.ok deferred, after)) ↔
        p.anonymous = q.anonymous) ∧
      ∀ deferred after, checkShape env p q setting memory = (.ok deferred, after) →
        deferred = [] ∧ lowerAll setting after = lowerAll setting memory ∧
          (memory.state.simple = [] → lowerAll setting after = (.ok (), memory)) := by
  have leftRigid : env.Rigid p.refineBottom := by
    unfold Environment.Rigid Shape.refineBottom
    rwa [← typeVarOccurrences_shape, Shape.shape_refine]
  have rightRigid : env.Rigid q.refineTop := by
    unfold Environment.Rigid Shape.refineTop
    rwa [← typeVarOccurrences_shape, Shape.shape_refine]
  have same : (Decomposition.ofSubtype env p.refineBottom q.refineTop).mismatch = none ↔
      p.anonymous = q.anonymous := by
    rw [Decomposition.mismatch_ofSubtype, Shape.anonymous_eq_iff, Shape.refineBottom,
      Shape.refineTop, ← toTerm_shape, ← toTerm_shape (Shape.refine true q),
      Shape.shape_refine, Shape.shape_refine]
  have vacuous := Decomposition.vacuous_of_mem_atoms leftRigid rightRigid rfl rfl
  obtain ⟨enough, runs⟩ := (Decomposition.describes_subtype leftRigid rightRigid
    ⟨memory.names, memory.state⟩).run_rewriteAll
  refine ⟨enough, fun setting sufficient => ?_⟩
  have run : checkShape env p q setting memory = _ :=
    run_rewrite_eq (runs setting.steps sufficient)
  rw [run, ← same]
  cases stops : (Decomposition.ofSubtype env p.refineBottom q.refineTop).mismatch with
  | some mismatch =>
      rw [Decomposition.outcome_of_mismatch stops]
      exact ⟨iff_of_false nofun nofun, nofun⟩
  | none =>
      rw [Decomposition.outcome_of_complete stops]
      refine ⟨iff_of_true ⟨_, _, rfl⟩ rfl, fun deferred after ran => ?_⟩
      cases ran
      have lowered := run_lowerAll_addSimple setting memory vacuous
      exact ⟨rfl, lowered, fun none => lowered.trans (run_lowerAll_of_nil setting memory none)⟩

def boxFolds (outer inner : String) : Shape :=
  .function outer
    (.function inner (.atom .int ()) (.scalar (.data "Box") [.atom (.typeVar "a") ()] ()))
    (.atom .bool ())

theorem Search.checkShape_boxFolds :
    ∃ enough, ∀ setting : Setting Unit, enough ≤ setting.steps →
      ∃ after, checkShape (Environment.addTypeVar ∅ "a") (boxFolds "f" "n") (boxFolds "g" "m")
          setting { state := {}, solver := () } = (.ok [], after) ∧
        lowerAll setting after = (.ok (), { state := {}, solver := () }) := by
  have leftBound : ∀ name ∈ (boxFolds "f" "n").typeVarOccurrences,
      (Environment.addTypeVar ∅ "a").isBound name = true := by decide
  have rightBound : ∀ name ∈ (boxFolds "g" "m").typeVarOccurrences,
      (Environment.addTypeVar ∅ "a").isBound name = true := by decide
  let memory : Memory Unit := { state := {}, solver := () }
  obtain ⟨enough, checks⟩ := checkShape_constrains_nothing leftBound rightBound memory
  refine ⟨enough, fun setting sufficient => ?_⟩
  obtain ⟨succeeds, leaves⟩ := checks setting sufficient
  obtain ⟨deferred, after, ran⟩ := succeeds.mpr rfl
  obtain ⟨rfl, _, lowered⟩ := leaves deferred after ran
  exact ⟨after, ran, lowered rfl⟩

end Inhabit
