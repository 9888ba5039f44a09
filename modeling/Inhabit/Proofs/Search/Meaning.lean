import Inhabit.Proofs.Naming.Lockstep
import Inhabit.Proofs.Validity.Traps

/-! What lowered clauses say.

A clause is put together from sets of facts by connectives that absorb literals, and none of
this matters to its truth. It says that the consequent follows from the antecedent and the
facts in scope, unless something is true that should not be. -/

namespace Inhabit

open Formula

variable {values : Formula → Int} {env : Environment} {assignment : TypeAssignment}
  {left right : Formula}

/-! ## Facts in scope -/

namespace Environment

/-- What the scope says under an assignment: the assumptions, and the refinements of scalar
symbols and ghosts that are not constants, stated about their own names. -/
inductive States (env : Environment) (assignment : TypeAssignment) : Formula → Prop where
  | assumption {f : Formula} (assumed : f ∈ env.assumptions) :
      States env assignment (assignment.applyFormula f)
  | symbol {name : String} {type : RefinedType} {base : BaseType}
      {arguments : List RefinedType} {refinement : Formula}
      (bound : (env.symbolsOfArity 0).find? name = some (.mono type))
      (notConstant : env.isConstant name = false)
      (scalar : assignment.apply type = .scalar base arguments refinement) :
      States env assignment (refinement.substituteVar valueName (.var base.sort name))
  | ghost {name : String} {type : RefinedType} {base : BaseType}
      {arguments : List RefinedType} {refinement : Formula}
      (bound : env.ghosts.find? name = some type)
      (notConstant : env.isConstant name = false)
      (scalar : assignment.apply type = .scalar base arguments refinement) :
      States env assignment (refinement.substituteVar valueName (.var base.sort name))

theorem States.holds {fact : Formula} (states : env.States assignment fact)
    (hold : ∀ positive ∈ env.positives assignment, positive.Holds values) :
    fact.Holds values := by
  by_cases trivial : fact.isTrue = true
  · rw [eq_top_of_isTrue trivial]
    exact holds_top
  · apply hold
    rw [mem_positives_under]
    rw [Bool.not_eq_true] at trivial
    cases states with
    | assumption assumed => exact .inl ⟨_, assumed, rfl⟩
    | @symbol name type base arguments refinement bound notConstant scalar =>
        refine .inr ⟨name, .scalar base arguments refinement, ?_, notConstant, rfl, trivial⟩
        exact mem_scalarBindings.mpr
          ⟨type, .inl (SortedMap.mem_entries_of_find? bound), scalar, rfl⟩
    | @ghost name type base arguments refinement bound notConstant scalar =>
        refine .inr ⟨name, .scalar base arguments refinement, ?_, notConstant, rfl, trivial⟩
        exact mem_scalarBindings.mpr
          ⟨type, .inr (SortedMap.mem_entries_of_find? bound), scalar, rfl⟩

theorem states_of_mem_positives {fact : Formula} (member : fact ∈ env.positives assignment) :
    env.States assignment fact := by
  rcases mem_positives_under.mp member with
    ⟨assumption, assumed, rfl⟩ | ⟨name, applied, binding, notConstant, rfl, _⟩
  · exact .assumption assumed
  · rcases mem_scalarBindings.mp binding with ⟨type, inScope, scalar, isScalar⟩
    cases applied with
    | function _ _ _ => cases isScalar
    | scalar base arguments refinement =>
        rcases inScope with symbol | ghost
        · exact .symbol (SortedMap.find?_of_mem_entries symbol) notConstant scalar
        · exact .ghost (SortedMap.find?_of_mem_entries ghost) notConstant scalar

theorem positives_hold_iff :
    (∀ fact ∈ env.positives assignment, fact.Holds values) ↔
      ∀ fact, env.States assignment fact → fact.Holds values :=
  ⟨fun hold _ states => states.holds hold,
    fun hold fact member => hold fact (states_of_mem_positives member)⟩

theorem negatives_hold_iff :
    (∃ fact ∈ env.negatives assignment, fact.Holds values) ↔
      ∃ refutation ∈ env.refutations, (assignment.applyFormula refutation).Holds values := by
  simp only [mem_negatives_under]
  exact ⟨fun ⟨_, ⟨refutation, member, same⟩, holds⟩ => ⟨refutation, member, same ▸ holds⟩,
    fun ⟨refutation, member, holds⟩ => ⟨_, ⟨refutation, member, rfl⟩, holds⟩⟩

end Environment

/-! ## Clauses -/

namespace Search

theorem hasValue_subtypeClause
    (positives : ∀ fact ∈ env.positives assignment, fact.HasValue values)
    (negatives : ∀ fact ∈ env.negatives assignment, fact.HasValue values)
    (leftHasValue : left.HasValue values) (rightHasValue : right.HasValue values) :
    (subtypeClause env assignment left right).toFormula.HasValue values :=
  ((hasValue_conjunction fun _ => positives _ ∘ SortedSet.mem_toList.mp).and
    leftHasValue).implies
    ((hasValue_disjunction fun _ => negatives _ ∘ SortedSet.mem_toList.mp).or rightHasValue)

theorem holds_antecedent :
    (subtypeClause env assignment left right).antecedent.Holds values ↔
      (∀ fact ∈ env.positives assignment, fact.Holds values) ∧ left.Holds values := by
  unfold subtypeClause
  simp only [holds_and, holds_conjunction, SortedSet.mem_toList]

theorem consequent_eq :
    (subtypeClause env assignment left right).consequent =
      disjunction ((env.negatives assignment).toList ++ [right]) :=
  (disjunction_concat _ right).symm

theorem holds_consequent
    (hasValue : (subtypeClause env assignment left right).consequent.HasValue values) :
    (subtypeClause env assignment left right).consequent.Holds values ↔
      (∃ fact ∈ env.negatives assignment, fact.Holds values) ∨ right.Holds values := by
  rw [consequent_eq] at hasValue ⊢
  rw [holds_disjunction hasValue]
  simp only [List.mem_append, List.mem_singleton, SortedSet.mem_toList, or_and_right, exists_or,
    exists_eq_left]

theorem holds_subtypeClause_iff
    (hasValue : (subtypeClause env assignment left right).toFormula.HasValue values) :
    (subtypeClause env assignment left right).toFormula.Holds values ↔
      ((∀ fact ∈ env.positives assignment, fact.Holds values) → left.Holds values →
        (∃ fact ∈ env.negatives assignment, fact.Holds values) ∨ right.Holds values) := by
  rw [HornClause.toFormula, holds_implies hasValue, holds_antecedent, and_imp]
  refine imp_congr_right fun hold => imp_congr_right fun holds => ?_
  exact holds_consequent (hasValue.conclusion (holds_antecedent.mpr ⟨hold, holds⟩))

end Search

/-! ## Refutations -/

namespace Formula

variable {f : Formula}

theorem holds_unary_not : (unary .not f).Holds values ↔ f.Fails values := by
  constructor
  · rintro ⟨value, result, nonzero⟩
    rcases evaluate_not_eq_ok.mp result with ⟨operand, evaluated, rfl⟩
    by_cases zero : operand = 0
    · rwa [zero] at evaluated
    · exact absurd (by simp [zero, ofTruth]) nonzero
  · exact fun fails => ⟨1, evaluate_not_eq_ok.mpr ⟨0, fails, rfl⟩, by decide⟩

theorem fails_unary_not : (unary .not f).Fails values ↔ f.Holds values := by
  constructor
  · intro fails
    rcases evaluate_not_eq_ok.mp fails with ⟨operand, evaluated, zero⟩
    refine ⟨operand, evaluated, fun isZero => ?_⟩
    rw [isZero] at zero
    cases zero
  · rintro ⟨operand, evaluated, nonzero⟩
    exact evaluate_not_eq_ok.mpr ⟨operand, evaluated, by simp [nonzero, ofTruth]⟩

theorem holds_not : f.not.Holds values ↔ f.Fails values := by
  cases f with
  | bool b =>
      cases b with
      | false => exact iff_of_true holds_top fails_bottom
      | true => exact iff_of_false (fun holds => holds.not_fails fails_bottom) holds_top.not_fails
  | unary op g =>
      cases op with
      | neg => exact holds_unary_not
      | not => exact fails_unary_not.symm
  | int | var | unknown | binary | ite | measure => exact holds_unary_not

end Formula

theorem TypeAssignment.applyFormula_not (assignment : TypeAssignment) (f : Formula) :
    assignment.applyFormula f.not = (assignment.applyFormula f).not := by
  cases f with
  | unary op g => cases op <;> rfl
  | bool | int | var | unknown | binary | ite | measure => rfl

namespace Environment

variable {f : Formula}

theorem States.mono {other : Environment} {fact : Formula}
    (states : env.States assignment fact) (symbols : other.symbols = env.symbols)
    (ghosts : other.ghosts = env.ghosts) (constants : other.constants = env.constants)
    (assumptions : ∀ assumption ∈ env.assumptions, assumption ∈ other.assumptions) :
    other.States assignment fact := by
  have symbolsOfArity : other.symbolsOfArity 0 = env.symbolsOfArity 0 :=
    congrArg (fun symbols => (symbols.find? 0).getD ∅) symbols
  have isConstant (name : String) : other.isConstant name = env.isConstant name :=
    congrArg (·.contains name) constants
  cases states with
  | assumption assumed => exact .assumption (assumptions _ assumed)
  | symbol bound notConstant scalar =>
      exact .symbol (symbolsOfArity ▸ bound) ((isConstant _).trans notConstant) scalar
  | ghost bound notConstant scalar =>
      exact .ghost (ghosts ▸ bound) ((isConstant _).trans notConstant) scalar

theorem states_assume_iff :
    (∀ fact, (env.assume f).States assignment fact → fact.Holds values) ↔
      (assignment.applyFormula f).Holds values ∧
        ∀ fact, env.States assignment fact → fact.Holds values := by
  unfold assume
  split
  case isTrue trivial =>
    rw [eq_top_of_isTrue trivial]
    exact (and_iff_right holds_top).symm
  case isFalse =>
    constructor
    · intro hold
      refine ⟨hold _ (.assumption (SortedSet.mem_insert.mpr (.inl rfl))), ?_⟩
      exact fun fact states => hold fact
        (states.mono rfl rfl rfl fun _ old => SortedSet.mem_insert.mpr (.inr old))
    · rintro ⟨holds, hold⟩ fact states
      cases states with
      | assumption assumed =>
          rcases SortedSet.mem_insert.mp assumed with rfl | old
          · exact holds
          · exact hold _ (.assumption old)
      | symbol bound notConstant scalar => exact hold _ (.symbol bound notConstant scalar)
      | ghost bound notConstant scalar => exact hold _ (.ghost bound notConstant scalar)

theorem states_refute {fact : Formula} :
    (env.refute f).States assignment fact ↔ env.States assignment fact := by
  unfold refute
  split
  · rfl
  · exact ⟨fun states => states.mono rfl rfl rfl fun _ => id,
      fun states => states.mono rfl rfl rfl fun _ => id⟩

theorem refutations_refute_iff :
    (∃ refutation ∈ (env.refute f).refutations,
        (assignment.applyFormula refutation).Holds values) ↔
      (assignment.applyFormula f).Holds values ∨
        ∃ refutation ∈ env.refutations, (assignment.applyFormula refutation).Holds values := by
  unfold refute
  split
  case isTrue trivial =>
    rw [eq_bottom_of_isFalse trivial]
    exact (or_iff_right fun holds => holds.not_fails fails_bottom).symm
  case isFalse =>
    simp only [SortedSet.mem_insert, or_and_right, exists_or, exists_eq_left]

theorem mem_negatives_refute (notLiteral : f.isFalse = false) :
    assignment.applyFormula f ∈ (env.refute f).negatives assignment := by
  rw [refute, if_neg (Bool.not_eq_true _ ▸ notLiteral), mem_negatives_under]
  exact ⟨f, SortedSet.mem_insert.mpr (.inl rfl), rfl⟩

theorem refutations_assume : (env.assume f).refutations = env.refutations := by
  unfold assume
  split <;> rfl

theorem isBound_assume (name : String) : (env.assume f).isBound name = env.isBound name := by
  unfold assume
  split <;> rfl

theorem isBound_refute (name : String) : (env.refute f).isBound name = env.isBound name := by
  unfold refute
  split <;> rfl

end Environment

namespace Search

/-- A consequent that has a value though a formula refuted in it has none contains a literal
that is true. -/
theorem holds_consequent_of_trap {g : Formula}
    (hasValue : (subtypeClause (env.refute g) assignment left right).consequent.HasValue values)
    (trap : ¬ (assignment.applyFormula g).HasValue values) :
    (subtypeClause (env.refute g) assignment left right).consequent.Holds values := by
  have notLiteral : g.isFalse = false := by
    rw [Bool.eq_false_iff]
    intro isFalse
    rw [eq_bottom_of_isFalse isFalse] at trap
    exact trap hasValue_bottom
  have member : assignment.applyFormula g ∈ ((env.refute g).negatives assignment).toList :=
    SortedSet.mem_toList.mpr (Environment.mem_negatives_refute notLiteral)
  rw [consequent_eq] at hasValue ⊢
  exact holds_disjunction_of_trap hasValue (List.mem_append_left _ member) trap

/-- Where nothing stops the evaluation of either clause, it makes no difference whether a
formula is refuted or its negation assumed. -/
theorem holds_subtypeClause_refute_iff {g : Formula}
    (refuting : (subtypeClause (env.refute g) assignment left right).toFormula.HasValue values)
    (assuming : (subtypeClause (env.assume g.not) assignment left right).toFormula.HasValue
      values) :
    (subtypeClause (env.refute g) assignment left right).toFormula.Holds values ↔
      (subtypeClause (env.assume g.not) assignment left right).toFormula.Holds values := by
  rw [holds_subtypeClause_iff assuming, holds_subtypeClause_iff refuting,
    Environment.positives_hold_iff, Environment.positives_hold_iff,
    Environment.states_assume_iff, TypeAssignment.applyFormula_not, holds_not]
  simp only [Environment.states_refute]
  constructor
  · rintro follows ⟨fails, hold⟩ holds
    rw [Environment.negatives_hold_iff, Environment.refutations_refute_iff] at follows
    rw [Environment.negatives_hold_iff, Environment.refutations_assume]
    rcases follows hold holds with (refuted | others) | conclusion
    · exact absurd fails refuted.not_fails
    · exact .inl others
    · exact .inr conclusion
  · intro follows hold holds
    -- A refuted formula without a value is one that the evaluation never gets to.
    by_cases evaluated : (assignment.applyFormula g).HasValue values
    · rw [Environment.negatives_hold_iff, Environment.refutations_assume] at follows
      rw [Environment.negatives_hold_iff, Environment.refutations_refute_iff]
      rcases evaluated.holds_or_fails with refuted | fails
      · exact .inl (.inl refuted)
      · exact (follows ⟨fails, hold⟩ holds).imp_left .inr
    · have conclusion := refuting.conclusion (holds_antecedent.mpr
        ⟨Environment.positives_hold_iff.mpr fun fact states =>
          hold fact (Environment.states_refute.mp states), holds⟩)
      exact (holds_consequent conclusion).mp (holds_consequent_of_trap conclusion evaluated)

def Lowers {σ : Type} (setting : Setting σ) (memory : Memory σ) (constraint : Constraint)
    (clauses : List HornClause) : Prop :=
  lower constraint setting memory = (.ok (), memory.addClauses clauses)

theorem exists_lowers {σ : Type} (setting : Setting σ) (memory : Memory σ) {base : BaseType}
    (bound : ∀ name, base = .typeVar name → env.isBound name = true) (left right : Formula) :
    ∃ clauses, Lowers setting memory (.subtype env (.atom base left) (.atom base right)) clauses ∧
      clauses = if (memory.state.assignment.applyFormula right).isTrue then []
        else [subtypeClause env memory.state.assignment
          (memory.state.assignment.applyFormula left)
          (memory.state.assignment.applyFormula right)] := by
  have rigid (refinement : Formula) : env.freeVar? (.atom base refinement) = none := by
    cases base with
    | typeVar name => exact if_pos (bound name rfl)
    | bool | int | data => rfl
  exact ⟨_, run_lower_atoms (rigid left) (rigid right) setting rfl, rfl⟩

/-- The clause of an atomic subtyping without free type variables says that the right
refinement follows from the left one and what the scope says, unless a refuted formula is
true. Where there is no clause the right refinement is true. A refutation acts like the
assumption of the negation. -/
theorem lowered_clauses_mean_implications {σ : Type} (setting : Setting σ) (memory : Memory σ)
    {base : BaseType} (bound : ∀ name, base = .typeVar name → env.isBound name = true)
    (left right : Formula) :
    let assignment := memory.state.assignment
    (∃ clauses,
      Lowers setting memory (.subtype env (.atom base left) (.atom base right)) clauses ∧
      clauses.length ≤ 1 ∧
      (clauses = [] → ∀ values, (assignment.applyFormula right).Holds values) ∧
      ∀ clause ∈ clauses, ∀ values, ¬ clause.toFormula.NegatesLeast values →
        (clause.toFormula.Holds values ↔
          ((∀ fact, env.States assignment fact → fact.Holds values) ∧
              (assignment.applyFormula left).Holds values →
            (∃ refutation ∈ env.refutations,
                (assignment.applyFormula refutation).Holds values) ∨
              (assignment.applyFormula right).Holds values))) ∧
      ∀ g, ∃ refuting assuming,
        Lowers setting memory
            (.subtype (env.refute g) (.atom base left) (.atom base right)) refuting ∧
          Lowers setting memory
            (.subtype (env.assume g.not) (.atom base left) (.atom base right)) assuming ∧
          List.Forall₂ (fun first second : HornClause => ∀ values,
            ¬ first.toFormula.NegatesLeast values → ¬ second.toFormula.NegatesLeast values →
              (first.toFormula.Holds values ↔ second.toFormula.Holds values))
            refuting assuming := by
  intro assignment
  constructor
  · rcases exists_lowers setting memory bound left right with ⟨clauses, lowers, equal⟩
    refine ⟨clauses, lowers, ?_⟩
    subst equal
    split
    case isTrue trivial =>
      refine ⟨Nat.zero_le 1, fun _ values => ?_, List.forall_mem_nil _⟩
      rw [eq_top_of_isTrue trivial]
      exact holds_top
    case isFalse =>
      refine ⟨le_rfl, nofun, List.forall_mem_singleton.mpr fun values proper => ?_⟩
      rw [holds_subtypeClause_iff (hasValue_of_not_negatesLeast proper),
        Environment.positives_hold_iff, Environment.negatives_hold_iff, and_imp]
  · intro g
    rcases exists_lowers setting memory
      (fun name same => (Environment.isBound_refute name).trans (bound name same)) left right with
      ⟨refuting, lowersRefuting, equal⟩
    rcases exists_lowers setting memory
      (fun name same => (Environment.isBound_assume name).trans (bound name same)) left right with
      ⟨assuming, lowersAssuming, otherEqual⟩
    refine ⟨refuting, assuming, lowersRefuting, lowersAssuming, ?_⟩
    subst equal otherEqual
    split
    · exact .nil
    · refine .cons (fun values proper otherProper => ?_) .nil
      exact holds_subtypeClause_refute_iff (hasValue_of_not_negatesLeast proper)
        (hasValue_of_not_negatesLeast otherProper)

section Levels

def levelScope : Environment :=
  let scope := Environment.addVariable ∅ "x" (.atom .int ((value .int).atLeast (.int 1)))
  let scope := scope.addConstant "k" (.mono (.atom .int ((value .int).equals (.int 5))))
  let scope := scope.addGhost "y"
    (.atom (.typeVar "a") ((value (.var "a")).atLeast (.var .int "x")))
  (scope.assume (.var .bool "b")).refute ((Formula.var .int "x").atLeast (.int 9))

def levelMemory : Memory Unit where
  state := { assignment := .singleton "a" (.atom .int ((value .int).lessThan (.int 8))) }
  solver := ()

theorem levelScope_clause :
    let left := (value .int).equals (.var .int "y")
    let right := (value .int).atLeast (.int 0)
    (∀ name, BaseType.int = .typeVar name → levelScope.isBound name = true) ∧
      ∀ setting : Setting Unit, ∃ clause,
        Lowers setting levelMemory
            (.subtype levelScope (.atom .int left) (.atom .int right)) [clause] ∧
          ∀ values, ¬ clause.toFormula.NegatesLeast values →
            (clause.toFormula.Holds values ↔
              ((∀ fact, levelScope.States levelMemory.state.assignment fact →
                  fact.Holds values) ∧ left.Holds values →
                (∃ refutation ∈ levelScope.refutations,
                  (levelMemory.state.assignment.applyFormula refutation).Holds values) ∨
                right.Holds values)) := by
  intro left right
  have bound : ∀ name, BaseType.int = .typeVar name → levelScope.isBound name = true := nofun
  refine ⟨bound, fun setting => ?_⟩
  rcases (lowered_clauses_mean_implications setting levelMemory bound left right).1 with
    ⟨clauses, lowers, short, silent, means⟩
  match clauses with
  | [] =>
      have holds : right.Holds fun _ => -1 := silent rfl fun _ => -1
      exact absurd rfl holds.not_fails
  | [clause] => exact ⟨clause, lowers, means clause List.mem_cons_self⟩
  | _ :: _ :: _ => exact absurd short (by simp)

example : (subtypeClause levelScope levelMemory.state.assignment
    ((value .int).equals (.var .int "y")) ((value .int).atLeast (.int 0))).render =
      "((b && (x >= 1)) && ((y < 8) && (y >= x))) && (_v == y) ==> (x >= 9) || (_v >= 0)" := by
  decide +kernel

end Levels

end Search

end Inhabit
