import Inhabit.Proofs.Validity.Connectives

/-! What evaluation meets on its way.

Sums, differences and products stop at the ends of the range, so all values stay in it.
Only a negation can be without a value, and only where its operand has come to the least
value. -/

namespace Inhabit.Formula

variable {values : Formula → Int} {f g h : Formula} {value : Int}

/-! ## Values of terms -/

theorem negate_eq_ok {n : Int} : negate n = .ok value ↔ n ≠ leastValue ∧ -n = value := by
  unfold negate
  split
  case isTrue least => exact ⟨nofun, fun proper => absurd least proper.1⟩
  case isFalse proper => simp [proper]

theorem evaluate_neg_eq_ok :
    (unary .neg f).evaluate values = .ok value ↔
      ∃ operand, f.evaluate values = .ok operand ∧ operand ≠ leastValue ∧
        -operand = value := by
  simp only [← negate_eq_ok]
  constructor
  · exact Except.exists_of_bind_ok
  · rintro ⟨operand, evaluated, negated⟩
    simp only [evaluate, evaluated]
    exact negated

theorem evaluate_not_eq_ok :
    (unary .not f).evaluate values = .ok value ↔
      ∃ operand, f.evaluate values = .ok operand ∧ ofTruth (operand == 0) = value := by
  constructor
  · intro result
    rcases Except.exists_of_bind_ok result with ⟨operand, evaluated, equal⟩
    exact ⟨operand, evaluated, Except.ok.inj equal⟩
  · rintro ⟨operand, evaluated, rfl⟩
    simp only [evaluate, evaluated]
    rfl

theorem evaluate_binary_eq_ok {op : BinaryOp} :
    (binary op f g).evaluate values = .ok value ↔
      ∃ left right, f.evaluate values = .ok left ∧ g.evaluate values = .ok right ∧
        op.apply left right = value := by
  constructor
  · intro result
    rcases Except.exists_of_bind_ok result with ⟨left, first, result⟩
    rcases Except.exists_of_bind_ok result with ⟨right, second, equal⟩
    exact ⟨left, right, first, second, Except.ok.inj equal⟩
  · rintro ⟨left, right, first, second, rfl⟩
    simp only [evaluate, first, second]
    rfl

theorem evaluate_ite_eq_ok :
    (ite f g h).evaluate values = .ok value ↔
      f.Holds values ∧ g.evaluate values = .ok value ∨
        f.Fails values ∧ h.evaluate values = .ok value := by
  constructor
  · intro result
    rcases Except.exists_of_bind_ok result with ⟨condition, evaluated, result⟩
    by_cases zero : condition = 0
    · subst zero
      exact .inr ⟨evaluated, result⟩
    · rw [if_pos (bne_iff_ne.mpr zero)] at result
      exact .inl ⟨⟨condition, evaluated, zero⟩, result⟩
  · rintro (⟨⟨condition, evaluated, nonzero⟩, result⟩ | ⟨fails, result⟩)
    · simp only [evaluate, evaluated]
      exact (if_pos (bne_iff_ne.mpr nonzero)).trans result
    · simp only [evaluate, show f.evaluate values = .ok 0 from fails]
      exact result

theorem hasValue_neg :
    (unary .neg f).HasValue values ↔
      f.HasValue values ∧ f.evaluate values ≠ .ok leastValue := by
  constructor
  · rintro ⟨value, result⟩
    rcases evaluate_neg_eq_ok.mp result with ⟨operand, evaluated, proper, _⟩
    exact ⟨⟨operand, evaluated⟩, fun least =>
      proper (Except.ok.inj (evaluated.symm.trans least))⟩
  · rintro ⟨⟨operand, evaluated⟩, proper⟩
    exact ⟨_, evaluate_neg_eq_ok.mpr
      ⟨operand, evaluated, fun least => proper (least ▸ evaluated), rfl⟩⟩

theorem hasValue_not : (unary .not f).HasValue values ↔ f.HasValue values := by
  unfold HasValue
  simp only [evaluate_not_eq_ok]
  exact ⟨fun ⟨_, operand, evaluated, _⟩ => ⟨operand, evaluated⟩,
    fun ⟨operand, evaluated⟩ => ⟨_, operand, evaluated, rfl⟩⟩

theorem hasValue_binary {op : BinaryOp} :
    (binary op f g).HasValue values ↔ f.HasValue values ∧ g.HasValue values := by
  unfold HasValue
  simp only [evaluate_binary_eq_ok]
  exact ⟨fun ⟨_, left, right, first, second, _⟩ => ⟨⟨left, first⟩, ⟨right, second⟩⟩,
    fun ⟨⟨left, first⟩, ⟨right, second⟩⟩ => ⟨_, left, right, first, second, rfl⟩⟩

theorem hasValue_ite :
    (ite f g h).HasValue values ↔
      f.Holds values ∧ g.HasValue values ∨ f.Fails values ∧ h.HasValue values := by
  unfold HasValue
  simp only [evaluate_ite_eq_ok, exists_or, exists_and_left]

/-! ## Values in range -/

def InWord (value : Int) : Prop := leastValue ≤ value ∧ value ≤ greatestValue

theorem inWord_saturate (n : Int) : InWord (saturate n) := by
  unfold InWord saturate leastValue greatestValue
  split
  · omega
  · split <;> omega

theorem inWord_ofTruth (holds : Bool) : InWord (ofTruth holds) := by
  unfold InWord
  cases holds <;> decide

theorem inWord_toInt (n : Int64) : InWord n.toInt :=
  ⟨n.le_toInt, Int.le_sub_one_of_lt n.toInt_lt⟩

theorem inWord_apply (op : BinaryOp) (left right : Int) : InWord (op.apply left right) := by
  cases op with
  | times | plus | minus => exact inWord_saturate _
  | eq | neq | lt | le | gt | ge | and | or | implies | iff => exact inWord_ofTruth _

theorem InWord.neg (inWord : InWord value) (proper : value ≠ leastValue) :
    InWord (-value) := by
  unfold InWord leastValue greatestValue at *
  omega

theorem inWord_of_evaluate (atoms : ∀ atom ∈ f.atomOccurrences, InWord (values atom))
    (result : f.evaluate values = .ok value) : InWord value := by
  induction f using evaluate.induct generalizing value with
  | case1 b => exact Except.ok.inj result ▸ inWord_ofTruth b
  | case2 n => exact Except.ok.inj result ▸ inWord_toInt n
  | case3 sort name => exact Except.ok.inj result ▸ atoms _ List.mem_cons_self
  | case4 sort name f => exact Except.ok.inj result ▸ atoms _ List.mem_cons_self
  | case5 pending name => exact Except.ok.inj result ▸ inWord_ofTruth true
  | case6 f induction =>
      rcases evaluate_neg_eq_ok.mp result with ⟨operand, evaluated, proper, rfl⟩
      exact (induction atoms evaluated).neg proper
  | case7 f induction =>
      rcases evaluate_not_eq_ok.mp result with ⟨operand, _, rfl⟩
      exact inWord_ofTruth _
  | case8 op f g first second =>
      rcases evaluate_binary_eq_ok.mp result with ⟨left, right, _, _, rfl⟩
      exact inWord_apply op left right
  | case9 f g h first second third =>
      simp only [atomOccurrences, List.mem_append] at atoms
      rcases evaluate_ite_eq_ok.mp result with ⟨_, result⟩ | ⟨_, result⟩
      · exact second (fun atom member => atoms atom (.inr (.inl member))) result
      · exact third (fun atom member => atoms atom (.inr (.inr member))) result

/-! ## Negations of the least value -/

/-- Evaluating the first term comes to evaluating the second one: operands from left to
right, and one branch of a conditional. -/
inductive Demands (values : Formula → Int) : Formula → Formula → Prop where
  | self (f : Formula) : Demands values f f
  | operand {op : UnaryOp} {f term : Formula} (inner : Demands values f term) :
      Demands values (.unary op f) term
  | left {op : BinaryOp} {f g term : Formula} (inner : Demands values f term) :
      Demands values (.binary op f g) term
  | right {op : BinaryOp} {f g term : Formula} (evaluated : f.HasValue values)
      (inner : Demands values g term) : Demands values (.binary op f g) term
  | condition {f g h term : Formula} (inner : Demands values f term) :
      Demands values (.ite f g h) term
  | thenTerm {f g h term : Formula} (holds : f.Holds values)
      (inner : Demands values g term) : Demands values (.ite f g h) term
  | elseTerm {f g h term : Formula} (fails : f.Fails values)
      (inner : Demands values h term) : Demands values (.ite f g h) term

def NegatesLeast (values : Formula → Int) (f : Formula) : Prop :=
  ∃ operand, f.Demands values (.unary .neg operand) ∧
    operand.evaluate values = .ok leastValue

theorem HasValue.of_demands {term : Formula} (hasValue : f.HasValue values)
    (demands : f.Demands values term) : term.HasValue values := by
  induction demands with
  | self => exact hasValue
  | @operand op _ _ _ induction =>
      cases op with
      | neg => exact induction (hasValue_neg.mp hasValue).1
      | not => exact induction (hasValue_not.mp hasValue)
  | left _ induction => exact induction (hasValue_binary.mp hasValue).1
  | right _ _ induction => exact induction (hasValue_binary.mp hasValue).2
  | condition _ induction =>
      rcases hasValue_ite.mp hasValue with ⟨holds, _⟩ | ⟨fails, _⟩
      · exact induction holds.hasValue
      · exact induction ⟨0, fails⟩
  | thenTerm holds _ induction =>
      rcases hasValue_ite.mp hasValue with ⟨_, branch⟩ | ⟨fails, _⟩
      · exact induction branch
      · exact absurd fails holds.not_fails
  | elseTerm fails _ induction =>
      rcases hasValue_ite.mp hasValue with ⟨holds, _⟩ | ⟨_, branch⟩
      · exact absurd fails holds.not_fails
      · exact induction branch

theorem NegatesLeast.mono {term : Formula}
    (demands : ∀ other, term.Demands values other → f.Demands values other)
    (negates : term.NegatesLeast values) : f.NegatesLeast values := by
  rcases negates with ⟨operand, inside, least⟩
  exact ⟨operand, demands _ inside, least⟩

theorem hasValue_of_not_negatesLeast (proper : ¬ f.NegatesLeast values) :
    f.HasValue values := by
  induction f using evaluate.induct with
  | case1 | case2 | case3 | case4 | case5 => exact ⟨_, rfl⟩
  | case6 f induction =>
      have operand := induction fun negates => proper (negates.mono fun _ => .operand)
      exact hasValue_neg.mpr ⟨operand, fun least => proper ⟨f, .self _, least⟩⟩
  | case7 f induction =>
      exact hasValue_not.mpr (induction fun negates => proper (negates.mono fun _ => .operand))
  | case8 op f g first second =>
      have left := first fun negates => proper (negates.mono fun _ => .left)
      have right := second fun negates => proper (negates.mono fun _ => .right left)
      exact hasValue_binary.mpr ⟨left, right⟩
  | case9 f g h first second third =>
      have condition := first fun negates => proper (negates.mono fun _ => .condition)
      rcases condition.holds_or_fails with holds | fails
      · have branch := second fun negates => proper (negates.mono fun _ => .thenTerm holds)
        exact hasValue_ite.mpr (.inl ⟨holds, branch⟩)
      · have branch := third fun negates => proper (negates.mono fun _ => .elseTerm fails)
        exact hasValue_ite.mpr (.inr ⟨fails, branch⟩)

/-- Nothing else keeps a formula from having a value. -/
theorem hasValue_iff_not_negatesLeast : f.HasValue values ↔ ¬ f.NegatesLeast values := by
  refine ⟨fun hasValue => ?_, hasValue_of_not_negatesLeast⟩
  rintro ⟨operand, demands, least⟩
  exact (hasValue_neg.mp (hasValue.of_demands demands)).2 least

/-! ## Checks that come to an end -/

/-- The values of variables and measure terms are those of the bounded domain. -/
structure Assigns (bound : Int64) (values : Formula → Int) : Prop where
  vars : ∀ sort name, Admits bound (.var sort name) (values (.var sort name))
  measures : ∀ sort name argument,
    Admits bound (.measure sort name argument) (values (.measure sort name argument))

variable {bound : Int64}

theorem Admits.inWord (nonnegative : 0 ≤ bound.toInt) {atom : Formula}
    (admits : Admits bound atom value) : InWord value := by
  have greatest := (inWord_toInt bound).2
  unfold Admits at admits
  unfold InWord leastValue
  unfold greatestValue at greatest ⊢
  split at admits <;> omega

theorem Assigns.admits (assigns : Assigns bound values) :
    ∀ atom ∈ f.atomOccurrences, Admits bound atom (values atom) := by
  induction f using evaluate.induct with
  | case1 | case2 | case5 => exact List.forall_mem_nil _
  | case3 sort name => exact List.forall_mem_singleton.mpr (assigns.vars sort name)
  | case4 sort name f => exact List.forall_mem_singleton.mpr (assigns.measures sort name f)
  | case6 f induction | case7 f induction => exact induction
  | case8 op f g first second => exact List.forall_mem_append.mpr ⟨first, second⟩
  | case9 f g h first second third =>
      exact List.forall_mem_append.mpr ⟨first, List.forall_mem_append.mpr ⟨second, third⟩⟩

theorem Assigns.of_admits (inRange : ∀ atom, Admits bound atom (values atom)) :
    Assigns bound values :=
  ⟨fun _ _ => inRange _, fun _ _ _ => inRange _⟩

theorem Assigns.exists_admits (nonnegative : 0 ≤ bound.toInt) (assigns : Assigns bound values)
    (f : Formula) :
    ∃ others : Formula → Int, (∀ atom, Admits bound atom (others atom)) ∧
      f.evaluate others = f.evaluate values := by
  let others (atom : Formula) : Int := if atom ∈ f.atomOccurrences then values atom else 0
  refine ⟨others, fun atom => ?_, evaluate_congr fun atom member => if_pos member⟩
  by_cases member : atom ∈ f.atomOccurrences
  · rw [show others atom = values atom from if_pos member]
    exact assigns.admits atom member
  · rw [show others atom = 0 from if_neg member]
    exact admits_zero nonnegative atom

theorem isValidOver_iff_assigns (nonnegative : 0 ≤ bound.toInt) {atoms : List Formula}
    (covers : ∀ atom ∈ f.atomOccurrences, atom ∈ atoms) :
    f.isValidOver bound atoms = .ok true ↔ ∀ values, Assigns bound values → f.Holds values := by
  rw [isValidOver_iff nonnegative covers]
  constructor
  · intro valid values assigns
    rcases assigns.exists_admits nonnegative f with ⟨others, inRange, same⟩
    rcases valid others inRange with ⟨value, result, nonzero⟩
    exact ⟨value, same ▸ result, nonzero⟩
  · exact fun valid values inRange => valid values (.of_admits inRange)

theorem isValid_iff_assigns (nonnegative : 0 ≤ bound.toInt) :
    f.isValid bound = .ok true ↔ ∀ values, Assigns bound values → f.Holds values :=
  isValidOver_iff_assigns nonnegative fun _ => List.mem_eraseDups.mpr

def NeverNegatesLeast (bound : Int64) (f : Formula) : Prop :=
  ∀ values, Assigns bound values → ¬ f.NegatesLeast values

theorem HasValue.exists_verdict (hasValue : f.HasValue values) :
    ∃ verdict, f.verdict values = .ok verdict := by
  rcases hasValue with ⟨value, result⟩
  unfold verdict
  rw [result]
  exact ⟨_, rfl⟩

theorem NeverNegatesLeast.exists_isValidOver (nonnegative : 0 ≤ bound.toInt)
    (proper : f.NeverNegatesLeast bound) (atoms : List Formula) :
    ∃ verdict, f.isValidOver bound atoms = .ok verdict := by
  cases ran : f.isValidOver bound atoms with
  | ok verdict => exact ⟨verdict, rfl⟩
  | error trap =>
      rcases exists_of_isValidOver_eq nonnegative ran nofun with ⟨values, inRange, stopped⟩
      have hasValue := hasValue_of_not_negatesLeast (proper values (.of_admits inRange))
      rcases hasValue.exists_verdict with ⟨verdict, ended⟩
      cases stopped.symm.trans ended

theorem NeverNegatesLeast.exists_isValid (nonnegative : 0 ≤ bound.toInt)
    (proper : f.NeverNegatesLeast bound) : ∃ verdict, f.isValid bound = .ok verdict :=
  proper.exists_isValidOver nonnegative f.atoms

/-- All values that the check of a formula comes to are in range, and all that can stop it
is the negation of the least value, without which it ends with a verdict. With it the
formula is not found valid. -/
theorem check_stopped_only_by_negation (nonnegative : 0 ≤ bound.toInt) (f : Formula) :
    (∀ values, Assigns bound values → ∀ term, f.Demands values term →
        ∀ value, term.evaluate values = .ok value → InWord value) ∧
      (∀ values, f.HasValue values ↔ ¬ f.NegatesLeast values) ∧
      (f.NeverNegatesLeast bound → ∃ verdict, f.isValid bound = .ok verdict) ∧
      (¬ f.NeverNegatesLeast bound → f.isValid bound ≠ .ok true) := by
  refine ⟨fun values assigns term _ value result => ?_,
    fun values => hasValue_iff_not_negatesLeast,
    fun proper => proper.exists_isValid nonnegative, fun improper valid => improper ?_⟩
  · apply inWord_of_evaluate _ result
    exact fun atom member => (assigns.admits atom member).inWord nonnegative
  · intro values assigns
    have holds := (isValid_iff_assigns nonnegative).mp valid values assigns
    exact hasValue_iff_not_negatesLeast.mp holds.hasValue

section NegatedNumbers

def negatedBound : Formula := (int 2).atLeast (.neg (.var .int "x"))

theorem negatedBound_neverNegatesLeast : negatedBound.NeverNegatesLeast 2 := by
  intro values assigns
  rw [← hasValue_iff_not_negatesLeast]
  have inRange : -2 ≤ values (.var .int "x") ∧ values (.var .int "x") ≤ 2 :=
    assigns.vars .int "x"
  have proper : values (.var .int "x") ≠ leastValue := by
    unfold leastValue
    omega
  have negated : (Formula.neg (.var .int "x")).HasValue values :=
    hasValue_neg.mpr ⟨⟨_, rfl⟩, fun least => proper (Except.ok.inj least)⟩
  exact hasValue_binary.mpr ⟨⟨2, rfl⟩, negated⟩

theorem negatedBound_checked :
    0 ≤ (2 : Int64).toInt ∧ negatedBound.NeverNegatesLeast 2 ∧
      ∃ verdict, negatedBound.isValid 2 = .ok verdict := by
  have nonnegative : 0 ≤ (2 : Int64).toInt := by decide
  have proper := negatedBound_neverNegatesLeast
  exact ⟨nonnegative, proper,
    (check_stopped_only_by_negation nonnegative negatedBound).2.2.1 proper⟩

/-- The negation of the least literal stops the check of an equality of a term with itself,
and so does a negation whose operand has come to the least value from other literals. -/
theorem negated_least_value_stops :
    let least := (int Int64.minValue).neg
    let square := binary .times (int 4294967296) (int 4294967296)
    let beyond := binary .minus (binary .minus (int 0) square) (int 1)
    (least.equals least).isValid 2 = .error .negationOverflow ∧
      (Formula.neg beyond).isValid 2 = .error .negationOverflow :=
  ⟨rfl, rfl⟩

end NegatedNumbers

end Inhabit.Formula
