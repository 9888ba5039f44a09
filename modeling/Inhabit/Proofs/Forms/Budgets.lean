import Inhabit.Proofs.Forms.Handing

/-! Budgets bound what a search hands on.

Matches and conditionals are counted along the ways down a program, so that all nestings
of the two are bounded at once. A way goes through the bodies of a program; the terms that
are matched on have a budget of their own. -/

namespace Inhabit

namespace Program

def height : Program → Nat
  | .app function argument _ => max (height function) (height argument) + 1
  | _ => 0
termination_by structural program => program

theorem height_withType (program : Program) (type : RefinedType) :
    (program.withType type).height = program.height := by
  cases program <;> rfl

def bodies : Program → List Program
  | .symbol _ _ | .app _ _ _ => []
  | .lambda _ body _ | .fix _ body _ => [body]
  | .ite _ thenBranch elseBranch _ => [thenBranch, elseBranch]
  | .caseOf _ cases _ => cases.map Case.body

/-- The nodes on a way down from the root, to a leaf or less far. -/
inductive Way : Program → List Program → Prop where
  | root (program : Program) : Way program [program]
  | down {program body : Program} {nodes : List Program} (member : body ∈ program.bodies)
      (further : Way body nodes) : Way program (program :: nodes)

/-- The term that a match is on, or the term that ends a way, has a bounded height. -/
def Shallow (scrutineeDepth depth : Nat) : Program → Prop
  | .lambda _ _ _ | .fix _ _ _ | .ite _ _ _ _ => True
  | .caseOf scrutinee _ _ => scrutinee.IsTerm ∧ scrutinee.height ≤ scrutineeDepth
  | term => term.IsTerm ∧ term.height ≤ depth

structure Affords (scrutineeDepth : Nat) (depth : Depth) (nodes : List Program) : Prop where
  matching : nodes.countP isMatch ≤ depth.matching
  conditional : nodes.countP isConditional ≤ depth.conditional
  shallow : ∀ node ∈ nodes, node.Shallow scrutineeDepth depth.application

/-- The budgets bound every way down the program. -/
def WithinBudgets (scrutineeDepth : Nat) (depth : Depth) (program : Program) : Prop :=
  ∀ nodes, program.Way nodes → Affords scrutineeDepth depth nodes

section Budgets

variable {scrutineeDepth : Nat} {program : Program}

theorem withinBudgets_of_bodies {depth : Depth} {matching conditional : Nat}
    (each : ∀ body ∈ program.bodies,
      body.WithinBudgets scrutineeDepth ⟨depth.application, matching, conditional⟩)
    (enoughMatching : matching + program.isMatch.toNat ≤ depth.matching)
    (enoughConditional : conditional + program.isConditional.toNat ≤ depth.conditional)
    (shallow : program.Shallow scrutineeDepth depth.application) :
    program.WithinBudgets scrutineeDepth depth := by
  have extended {nodes : List Program}
      (rest : Affords scrutineeDepth ⟨depth.application, matching, conditional⟩ nodes) :
      Affords scrutineeDepth depth (program :: nodes) := by
    have fewMatches := rest.matching
    have fewConditionals := rest.conditional
    refine ⟨?_, ?_, List.forall_mem_cons.mpr ⟨shallow, rest.shallow⟩⟩
    · rw [List.countP_cons]
      cases isMatch : program.isMatch <;> simp_all <;> omega
    · rw [List.countP_cons]
      cases isConditional : program.isConditional <;> simp_all <;> omega
  rintro nodes (_ | ⟨member, further⟩)
  · exact extended ⟨Nat.zero_le _, Nat.zero_le _, List.forall_mem_nil _⟩
  · exact extended (each _ member _ further)

theorem IsTerm.bodies (isTerm : program.IsTerm) : program.bodies = [] := by
  cases program with
  | symbol | app => rfl
  | lambda | fix | ite | caseOf => cases isTerm

theorem IsTerm.shallow {depth : Nat} (isTerm : program.IsTerm)
    (low : program.height ≤ depth) : program.Shallow scrutineeDepth depth := by
  cases program with
  | symbol | app => exact ⟨isTerm, low⟩
  | lambda | fix | ite | caseOf => cases isTerm

theorem IsTerm.withinBudgets {depth : Depth} (isTerm : program.IsTerm)
    (low : program.height ≤ depth.application) :
    program.WithinBudgets scrutineeDepth depth := by
  have noMatch : program.isMatch = false := by
    cases program <;> first | rfl | cases isTerm
  have noConditional : program.isConditional = false := by
    cases program <;> first | rfl | cases isTerm
  apply withinBudgets_of_bodies (isTerm.bodies ▸ List.forall_mem_nil _)
  · exact (congrArg (0 + ·.toNat) noMatch).trans_le (Nat.zero_le _)
  · exact (congrArg (0 + ·.toNat) noConditional).trans_le (Nat.zero_le _)
  · exact isTerm.shallow low

theorem not_isApplication (low : program.height ≤ 0) :
    program.isApplication = false := by
  cases program with
  | app => exact absurd low (Nat.not_succ_le_zero _)
  | symbol | lambda | fix | ite | caseOf => rfl

end Budgets

structure Spares (scrutineeDepth : Nat) (depth : Depth) (node : Program) : Prop where
  matching : depth.matching = 0 → node.isMatch = false
  conditional : depth.conditional = 0 → node.isConditional = false
  application : depth.application = 0 → node.isApplication = false
  scrutinee : scrutineeDepth = 0 → ∀ scrutinee cases type,
    node = .caseOf scrutinee cases type → scrutinee.isApplication = false

theorem Affords.spares {scrutineeDepth : Nat} {depth : Depth} {nodes : List Program}
    (affords : Affords scrutineeDepth depth nodes) :
    ∀ node ∈ nodes, node.Spares scrutineeDepth depth := by
  have none {isKind : Program → Bool} (few : nodes.countP isKind ≤ 0) :
      ∀ node ∈ nodes, isKind node = false := fun node member =>
    Bool.eq_false_iff.mpr (List.countP_eq_zero.mp (Nat.le_zero.mp few) node member)
  intro node member
  have shallow := affords.shallow node member
  constructor
  · exact fun zero => none (zero ▸ affords.matching) node member
  · exact fun zero => none (zero ▸ affords.conditional) node member
  · intro zero
    cases node with
    | app => exact absurd (zero ▸ shallow.2) (Nat.not_succ_le_zero _)
    | symbol | lambda | fix | ite | caseOf => rfl
  · rintro zero scrutinee cases type rfl
    exact not_isApplication (zero ▸ shallow.2)

end Program

namespace Search

open Program

variable {scrutineeDepth guessDepth conditional matching : Nat} {env : Environment}
  {type : RefinedType}

theorem TermForm.height_le {depth : Nat} {program : Program}
    (form : TermForm env depth program) : program.height ≤ depth := by
  induction form with
  | symbol => exact Nat.zero_le _
  | application _ _ _ first second => exact Nat.succ_le_succ (max_le first second)

mutual

theorem BodyForm.withinBudgets : {conditional matching : Nat} → {env : Environment} →
    {type : RefinedType} → {program : Program} →
    BodyForm scrutineeDepth guessDepth conditional matching env type program →
      program.WithinBudgets scrutineeDepth ⟨guessDepth, matching, conditional⟩
  | _, _, _, _, _, .guess term =>
      (isTerm_withType.mpr term.isTerm).withinBudgets
        ((height_withType _ _).trans_le term.height_le)
  | _, _, _, _, _, .lambda inner =>
      withinBudgets_of_bodies (List.forall_mem_singleton.mpr inner.withinBudgets)
        le_rfl le_rfl trivial
  | _, _, _, _, _, .conditional first second =>
      withinBudgets_of_bodies
        (List.forall_mem_cons.mpr ⟨first.withinBudgets,
          List.forall_mem_singleton.mpr second.withinBudgets⟩)
        le_rfl le_rfl trivial
  | _, _, _, _, _, .caseOf _ term known _ each =>
      withinBudgets_of_bodies (List.forall_mem_map.mpr each.withinBudgets) le_rfl le_rfl
        ⟨isTerm_withType.mpr term.isTerm, (height_withType _ known).trans_le term.height_le⟩

theorem CasesForm.withinBudgets : {conditional matching : Nat} → {env : Environment} →
    {type : RefinedType} → {constructors : List String} → {cases : List (Case Program)} →
    CasesForm scrutineeDepth guessDepth conditional matching env type constructors cases →
      ∀ case ∈ cases,
        case.body.WithinBudgets scrutineeDepth ⟨guessDepth, matching, conditional⟩
  | _, _, _, _, _, _, .nil => List.forall_mem_nil _
  | _, _, _, _, _, _, .cons _ _ _ first rest =>
      List.forall_mem_cons.mpr ⟨first.withinBudgets, rest.withinBudgets⟩

end

/-- Whatever becomes of them, the programs that a search for a body hands on keep to the
budgets on every way down. A budget of zero leaves no node of its kind. -/
theorem budgets_bound_bodies (setting : Setting σ) (depth : Depth) (env : Environment)
    (type : RefinedType) :
    HandsOnly setting (searchBody depth env type) fun program =>
      ∀ nodes, program.Way nodes →
        Affords setting.parameters.scrutineeDepth depth nodes ∧
          ∀ node ∈ nodes, node.Spares setting.parameters.scrutineeDepth depth := by
  apply (handsBodies_searchBody depth env type).mono
  intro program form nodes way
  have affords := form.withinBudgets nodes way
  exact ⟨affords, affords.spares⟩

end Search

end Inhabit
