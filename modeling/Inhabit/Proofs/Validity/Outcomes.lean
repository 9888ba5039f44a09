import Inhabit.Horn.Clause
import Inhabit.Proofs.Validity.Bounded

/-! What clauses come to, apart from the order and the repetition of the facts they are
put together from. Connectives that absorb literals may hide a trap, so a literal is
told apart from another formula of the same truth. -/

namespace Inhabit

/-- What a formula comes to as a part of others. -/
inductive Outcome where
  | bottom
  | trapped
  | fails
  | holds
  | top
  deriving DecidableEq, Repr

namespace Outcome

def ofResult : Except Trap Int → Outcome
  | .error _ => trapped
  | .ok value => if value = 0 then fails else holds

def ofTruth : Option Bool → Outcome
  | none => trapped
  | some false => fails
  | some true => holds

def truth : Outcome → Option Bool
  | trapped => none
  | bottom | fails => some false
  | holds | top => some true

/-- Of two conjuncts the one that comes first in this order decides. -/
def meetRank : Outcome → Nat
  | bottom => 0
  | trapped => 1
  | fails => 2
  | holds => 3
  | top => 4

def joinRank : Outcome → Nat
  | top => 0
  | trapped => 1
  | holds => 2
  | fails => 3
  | bottom => 4

def first (rank : Outcome → Nat) (left right : Outcome) : Outcome :=
  if rank left ≤ rank right then left else right

def imply : Outcome → Outcome → Outcome
  | top, right => right
  | bottom, _ | _, top => top
  | trapped, _ | _, trapped => trapped
  | fails, _ | holds, holds => holds
  | holds, _ => fails

theorem meetRank_injective : Function.Injective meetRank := by
  intro left right
  cases left <;> cases right <;> simp [meetRank]

theorem joinRank_injective : Function.Injective joinRank := by
  intro left right
  cases left <;> cases right <;> simp [joinRank]

theorem foldl_first_mem (rank : Outcome → Nat) (start : Outcome)
    (outcomes : List Outcome) :
    outcomes.foldl (first rank) start ∈ start :: outcomes ∧
      ∀ outcome ∈ start :: outcomes,
        rank (outcomes.foldl (first rank) start) ≤ rank outcome := by
  induction outcomes generalizing start with
  | nil => simp
  | cons head rest induction =>
      rcases induction (first rank start head) with ⟨member, least⟩
      have either : first rank start head = start ∨ first rank start head = head := by
        unfold first
        split <;> simp
      have lower : rank (first rank start head) ≤ rank start ∧
          rank (first rank start head) ≤ rank head := by
        unfold first
        split <;> omega
      have below := least _ List.mem_cons_self
      rw [List.foldl_cons]
      constructor
      · rcases List.mem_cons.mp member with equal | inRest
        · rw [equal]
          rcases either with isStart | isHead
          · rw [isStart]
            exact List.mem_cons_self
          · rw [isHead]
            exact List.mem_cons_of_mem _ List.mem_cons_self
        · exact List.mem_cons_of_mem _ (List.mem_cons_of_mem _ inRest)
      · intro outcome isOne
        rcases List.mem_cons.mp isOne with rfl | isOne
        · omega
        · rcases List.mem_cons.mp isOne with rfl | inRest
          · omega
          · exact least outcome (List.mem_cons_of_mem _ inRest)

theorem foldl_first_congr {rank : Outcome → Nat} (injective : Function.Injective rank)
    (start : Outcome) {outcomes others : List Outcome}
    (same : ∀ outcome, outcome ∈ outcomes ↔ outcome ∈ others) :
    outcomes.foldl (first rank) start = others.foldl (first rank) start := by
  rcases foldl_first_mem rank start outcomes with ⟨member, least⟩
  rcases foldl_first_mem rank start others with ⟨otherMember, otherLeast⟩
  have both (outcome : Outcome) :
      outcome ∈ start :: outcomes ↔ outcome ∈ start :: others := by
    simp [same]
  apply injective
  apply Nat.le_antisymm
  · exact least _ ((both _).mpr otherMember)
  · exact otherLeast _ ((both _).mp member)

end Outcome

namespace Formula

variable (values : Formula → Int)

def outcome : Formula → Outcome
  | .bool true => .top
  | .bool false => .bottom
  | f => .ofResult (f.evaluate values)

theorem isTrue_eq (f : Formula) : f.isTrue = decide (f.outcome values = .top) := by
  unfold isTrue outcome
  split
  · rename_i b
    cases b <;> rfl
  · split
    · simp_all
    · simp_all
    · unfold Outcome.ofResult
      split
      · rfl
      · split <;> rfl

theorem isFalse_eq (f : Formula) : f.isFalse = decide (f.outcome values = .bottom) := by
  unfold isFalse outcome
  split
  · rename_i b
    cases b <;> rfl
  · split
    · simp_all
    · simp_all
    · unfold Outcome.ofResult
      split
      · rfl
      · split <;> rfl

theorem truth_outcome (f : Formula) :
    (f.outcome values).truth = (f.evaluate values).toOption.map (· != 0) := by
  unfold outcome
  split
  · rfl
  · rfl
  · cases f.evaluate values with
    | error _ => rfl
    | ok value =>
        by_cases zero : value = 0
        · simp [zero, Outcome.ofResult, Outcome.truth, Except.toOption]
        · simp [zero, Outcome.ofResult, Outcome.truth, Except.toOption]

theorem outcome_binary (op : BinaryOp) (f g : Formula) (decides : Bool → Bool → Bool)
    (applies : ∀ left right,
      op.apply left right = ofTruth (decides (left != 0) (right != 0))) :
    outcome values (.binary op f g) = .ofTruth (do
      let left ← (f.outcome values).truth
      let right ← (g.outcome values).truth
      return decides left right) := by
  rw [truth_outcome, truth_outcome]
  change Outcome.ofResult (do
    let left ← f.evaluate values
    let right ← g.evaluate values
    return op.apply left right) = _
  cases f.evaluate values with
  | error _ => rfl
  | ok left =>
      cases g.evaluate values with
      | error _ => rfl
      | ok right =>
          change (if op.apply left right = 0 then Outcome.fails else .holds) =
            .ofTruth (some (decides (left != 0) (right != 0)))
          rw [applies]
          cases decides (left != 0) (right != 0) <;> rfl

theorem outcome_and (f g : Formula) :
    (f.and g).outcome values =
      Outcome.first Outcome.meetRank (f.outcome values) (g.outcome values) := by
  have both := outcome_binary values .and f g (· && ·) fun _ _ => rfl
  unfold and
  rw [isTrue_eq values, isTrue_eq values, isFalse_eq values, isFalse_eq values]
  cases left : f.outcome values <;> cases right : g.outcome values <;>
    simp_all [Outcome.first, Outcome.meetRank, Outcome.truth, Outcome.ofTruth]

theorem outcome_or (f g : Formula) :
    (f.or g).outcome values =
      Outcome.first Outcome.joinRank (f.outcome values) (g.outcome values) := by
  have either := outcome_binary values .or f g (· || ·) fun _ _ => rfl
  unfold or
  rw [isTrue_eq values, isTrue_eq values, isFalse_eq values, isFalse_eq values]
  cases left : f.outcome values <;> cases right : g.outcome values <;>
    simp_all [Outcome.first, Outcome.joinRank, Outcome.truth, Outcome.ofTruth]

theorem outcome_implies (f g : Formula) :
    (f.implies g).outcome values =
      Outcome.imply (f.outcome values) (g.outcome values) := by
  have follows := outcome_binary values .implies f g (fun left right => !left || right)
    fun left right => by simp only [BinaryOp.apply, bne, Bool.not_not]
  unfold implies
  rw [isTrue_eq values, isTrue_eq values, isFalse_eq values]
  cases left : f.outcome values <;> cases right : g.outcome values <;>
    simp_all [Outcome.imply, Outcome.truth, Outcome.ofTruth, outcome]

theorem holds_iff (f : Formula) : f.Holds values ↔ (f.outcome values).truth = some true := by
  rw [truth_outcome]
  unfold Holds
  cases f.evaluate values with
  | error _ => simp [Except.toOption]
  | ok value => simp [Except.toOption]

theorem outcome_conjunction (formulas : List Formula) :
    (conjunction formulas).outcome values =
      (formulas.map (outcome values)).foldl (Outcome.first Outcome.meetRank) .top := by
  suffices general : ∀ start : Formula, (formulas.foldl and start).outcome values =
      (formulas.map (outcome values)).foldl (Outcome.first Outcome.meetRank)
        (start.outcome values) from general top
  induction formulas with
  | nil => exact fun _ => rfl
  | cons head rest induction =>
      intro start
      rw [List.foldl_cons, induction, outcome_and]
      rfl

theorem outcome_disjunction (formulas : List Formula) :
    (disjunction formulas).outcome values =
      (formulas.map (outcome values)).foldl (Outcome.first Outcome.joinRank) .bottom := by
  suffices general : ∀ start : Formula, (formulas.foldl or start).outcome values =
      (formulas.map (outcome values)).foldl (Outcome.first Outcome.joinRank)
        (start.outcome values) from general bottom
  induction formulas with
  | nil => exact fun _ => rfl
  | cons head rest induction =>
      intro start
      rw [List.foldl_cons, induction, outcome_or]
      rfl

end Formula

end Inhabit
