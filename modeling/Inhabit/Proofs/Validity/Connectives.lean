import Inhabit.Proofs.Validity.Outcomes

/-! When formulas hold and when they fail.

A formula that traps does neither, so that failing is not the contrary of holding. What
a conjunction says is taken apart after a replacement of variables, which does not absorb
the literals that it brings. -/

namespace Inhabit.Formula

variable {values : Formula → Int} {f g : Formula}

def Fails (values : Formula → Int) (f : Formula) : Prop := f.evaluate values = .ok 0

theorem Holds.not_fails (holds : f.Holds values) : ¬ f.Fails values := by
  intro fails
  rcases holds with ⟨value, equal, nonzero⟩
  exact nonzero (Except.ok.inj (equal.symm.trans fails))

theorem fails_iff : f.Fails values ↔ (f.outcome values).truth = some false := by
  rw [truth_outcome]
  unfold Fails
  cases f.evaluate values with
  | error _ => simp [Except.toOption]
  | ok value => simp [Except.toOption]

/-! ## Invalid formulas -/

theorem verdict_eq_false : f.verdict values = .ok false ↔ f.Fails values := by
  unfold verdict Fails
  cases f.evaluate values with
  | error trap => exact ⟨nofun, nofun⟩
  | ok value =>
      change Except.ok (value != 0) = Except.ok false ↔ _
      simp

theorem exists_fails_of_isValid {bound : Int64} (nonnegative : 0 ≤ bound.toInt)
    (invalid : f.isValid bound = .ok false) :
    ∃ values : Formula → Int, (∀ atom, Admits bound atom (values atom)) ∧ f.Fails values := by
  rcases exists_of_isValidOver_eq nonnegative invalid nofun with ⟨values, inRange, verdict⟩
  exact ⟨values, inRange, verdict_eq_false.mp verdict⟩

/-! ## Connectives -/

theorem holds_top : top.Holds values := ⟨1, rfl, by decide⟩

theorem fails_bottom : bottom.Fails values := rfl

theorem holds_binary_and :
    (binary .and f g).Holds values ↔ f.Holds values ∧ g.Holds values := by
  rw [holds_iff, holds_iff, holds_iff, outcome_binary values .and f g (· && ·) fun _ _ => rfl]
  cases f.outcome values <;> cases g.outcome values <;> simp [Outcome.truth, Outcome.ofTruth]

theorem fails_of_fails_binary_and (fails : (binary .and f g).Fails values) :
    f.Fails values ∨ g.Fails values := by
  rw [fails_iff, outcome_binary values .and f g (· && ·) fun _ _ => rfl] at fails
  rw [fails_iff, fails_iff]
  revert fails
  cases f.outcome values <;> cases g.outcome values <;> simp [Outcome.truth, Outcome.ofTruth]

theorem holds_of_holds_binary_or (holds : (binary .or f g).Holds values) :
    f.Holds values ∨ g.Holds values := by
  rw [holds_iff, outcome_binary values .or f g (· || ·) fun _ _ => rfl] at holds
  rw [holds_iff, holds_iff]
  revert holds
  cases f.outcome values <;> cases g.outcome values <;> simp [Outcome.truth, Outcome.ofTruth]

theorem fails_binary_or :
    (binary .or f g).Fails values ↔ f.Fails values ∧ g.Fails values := by
  rw [fails_iff, fails_iff, fails_iff, outcome_binary values .or f g (· || ·) fun _ _ => rfl]
  cases f.outcome values <;> cases g.outcome values <;> simp [Outcome.truth, Outcome.ofTruth]

theorem holds_and : (f.and g).Holds values ↔ f.Holds values ∧ g.Holds values := by
  rw [holds_iff, holds_iff, holds_iff, outcome_and]
  cases f.outcome values <;> cases g.outcome values <;>
    simp [Outcome.first, Outcome.meetRank, Outcome.truth]

theorem fails_implies : (f.implies g).Fails values ↔ f.Holds values ∧ g.Fails values := by
  rw [fails_iff, fails_iff, holds_iff, outcome_implies]
  cases f.outcome values <;> cases g.outcome values <;> simp [Outcome.imply, Outcome.truth]

theorem fails_or_holds_of_implies (holds : (f.implies g).Holds values) :
    f.Fails values ∨ g.Holds values := by
  rw [holds_iff, outcome_implies] at holds
  rw [fails_iff, holds_iff]
  revert holds
  cases f.outcome values <;> cases g.outcome values <;> simp [Outcome.imply, Outcome.truth]

theorem holds_conjunction {formulas : List Formula} :
    (conjunction formulas).Holds values ↔ ∀ f ∈ formulas, f.Holds values := by
  suffices general : ∀ start : Formula, (formulas.foldl and start).Holds values ↔
      start.Holds values ∧ ∀ f ∈ formulas, f.Holds values from
    (general top).trans (and_iff_right holds_top)
  induction formulas with
  | nil => simp
  | cons f rest induction =>
      intro start
      rw [List.foldl_cons, induction, holds_and, List.forall_mem_cons, and_assoc]

/-! ## Formulas that do not trap -/

def HasValue (values : Formula → Int) (f : Formula) : Prop :=
  ∃ value, f.evaluate values = .ok value

theorem hasValue_iff : f.HasValue values ↔ f.outcome values ≠ .trapped := by
  have truth := f.truth_outcome values
  unfold HasValue
  revert truth
  cases f.evaluate values with
  | error _ => cases f.outcome values <;> simp [Outcome.truth, Except.toOption]
  | ok value => cases f.outcome values <;> simp [Outcome.truth, Except.toOption]

theorem Holds.hasValue (holds : f.Holds values) : f.HasValue values := by
  rcases holds with ⟨value, result, _⟩
  exact ⟨value, result⟩

theorem HasValue.holds_or_fails (hasValue : f.HasValue values) :
    f.Holds values ∨ f.Fails values := by
  rcases hasValue with ⟨value, result⟩
  by_cases zero : value = 0
  · subst zero
    exact .inr result
  · exact .inl ⟨value, result, zero⟩

theorem hasValue_top : top.HasValue values := ⟨1, rfl⟩

theorem hasValue_bottom : bottom.HasValue values := ⟨0, rfl⟩

theorem HasValue.and (left : f.HasValue values) (right : g.HasValue values) :
    (f.and g).HasValue values := by
  rw [hasValue_iff] at left right ⊢
  rw [outcome_and]
  unfold Outcome.first
  split
  · exact left
  · exact right

theorem HasValue.or (left : f.HasValue values) (right : g.HasValue values) :
    (f.or g).HasValue values := by
  rw [hasValue_iff] at left right ⊢
  rw [outcome_or]
  unfold Outcome.first
  split
  · exact left
  · exact right

theorem HasValue.implies (left : f.HasValue values) (right : g.HasValue values) :
    (f.implies g).HasValue values := by
  rw [hasValue_iff] at left right ⊢
  rw [outcome_implies]
  revert left right
  cases f.outcome values <;> cases g.outcome values <;> simp [Outcome.imply]

theorem HasValue.conclusion (hasValue : (f.implies g).HasValue values)
    (holds : f.Holds values) : g.HasValue values := by
  rw [hasValue_iff] at hasValue ⊢
  rw [holds_iff] at holds
  rw [outcome_implies] at hasValue
  revert hasValue holds
  cases f.outcome values <;> cases g.outcome values <;> simp [Outcome.imply, Outcome.truth]

theorem holds_implies (hasValue : (f.implies g).HasValue values) :
    (f.implies g).Holds values ↔ (f.Holds values → g.Holds values) := by
  rw [hasValue_iff] at hasValue
  rw [outcome_implies] at hasValue
  rw [holds_iff, holds_iff, holds_iff, outcome_implies]
  revert hasValue
  cases f.outcome values <;> cases g.outcome values <;>
    simp [Outcome.imply, Outcome.truth]

theorem hasValue_conjunction {formulas : List Formula}
    (all : ∀ f ∈ formulas, f.HasValue values) : (conjunction formulas).HasValue values := by
  suffices general : ∀ start : Formula, start.HasValue values →
      (formulas.foldl and start).HasValue values from general top hasValue_top
  induction formulas with
  | nil => exact fun _ => id
  | cons f rest induction =>
      rw [List.forall_mem_cons] at all
      exact fun start first => induction all.2 (start.and f) (first.and all.1)

theorem hasValue_disjunction {formulas : List Formula}
    (all : ∀ f ∈ formulas, f.HasValue values) : (disjunction formulas).HasValue values := by
  suffices general : ∀ start : Formula, start.HasValue values →
      (formulas.foldl or start).HasValue values from general bottom hasValue_bottom
  induction formulas with
  | nil => exact fun _ => id
  | cons f rest induction =>
      rw [List.forall_mem_cons] at all
      exact fun start first => induction all.2 (start.or f) (first.or all.1)

theorem joinRank_le_iff : Outcome.joinRank (f.outcome values) ≤ 2 ↔
    f.Holds values ∨ ¬ f.HasValue values := by
  rw [holds_iff, hasValue_iff]
  cases f.outcome values <;> simp [Outcome.joinRank, Outcome.truth]

theorem joinRank_disjunction_le {formulas : List Formula} (member : f ∈ formulas) :
    Outcome.joinRank ((disjunction formulas).outcome values) ≤
      Outcome.joinRank (f.outcome values) := by
  rw [outcome_disjunction]
  exact (Outcome.foldl_first_mem _ _ _).2 _ (List.mem_cons_of_mem _ (List.mem_map_of_mem member))

/-- A disjunction that has a value although one of the formulas has none contains the literal
that absorbs all others. -/
theorem holds_disjunction_of_trap {formulas : List Formula}
    (hasValue : (disjunction formulas).HasValue values) (member : f ∈ formulas)
    (trap : ¬ f.HasValue values) : (disjunction formulas).Holds values := by
  have low := Nat.le_trans (joinRank_disjunction_le member) (joinRank_le_iff.mpr (.inr trap))
  exact (joinRank_le_iff.mp low).resolve_right fun trapped => trapped hasValue

theorem holds_disjunction {formulas : List Formula}
    (hasValue : (disjunction formulas).HasValue values) :
    (disjunction formulas).Holds values ↔ ∃ f ∈ formulas, f.Holds values := by
  constructor
  · intro holds
    have isOne := (Outcome.foldl_first_mem Outcome.joinRank .bottom
      (formulas.map (outcome values))).1
    rw [← outcome_disjunction] at isOne
    rw [holds_iff] at holds
    rcases List.mem_cons.mp isOne with bottom | isOne
    · rw [bottom] at holds
      cases holds
    · rcases List.mem_map.mp isOne with ⟨f, member, same⟩
      refine ⟨f, member, ?_⟩
      rw [holds_iff, same, holds]
  · rintro ⟨f, member, holds⟩
    have low := Nat.le_trans (joinRank_disjunction_le member) (joinRank_le_iff.mpr (.inl holds))
    exact (joinRank_le_iff.mp low).resolve_right fun trapped => trapped hasValue

theorem disjunction_concat (formulas : List Formula) (f : Formula) :
    disjunction (formulas ++ [f]) = (disjunction formulas).or f := by
  rw [disjunction, List.foldl_append]
  rfl

/-! ## Conjunctions with something else in the place of variables -/

section Substitution

variable {substitution : Substitution}

theorem eq_top_of_isTrue (isTrue : f.isTrue = true) : f = top := by
  cases f <;> simp_all [Formula.isTrue]

theorem eq_bottom_of_isFalse (isFalse : f.isFalse = true) : f = bottom := by
  cases f <;> simp_all [Formula.isFalse]

theorem and_eq (f g : Formula) :
    f = top ∧ f.and g = g ∨ g = top ∧ f.and g = f ∨
      (f = bottom ∨ g = bottom) ∧ f.and g = bottom ∨ f.and g = .binary .and f g := by
  unfold Formula.and
  split
  case isTrue first =>
    rcases Bool.or_eq_true_iff.mp first with isTrue | isFalse
    · exact .inl ⟨eq_top_of_isTrue isTrue, rfl⟩
    · have equal := eq_bottom_of_isFalse isFalse
      exact .inr (.inr (.inl ⟨.inr equal, equal⟩))
  case isFalse =>
    split
    case isTrue second =>
      rcases Bool.or_eq_true_iff.mp second with isTrue | isFalse
      · exact .inr (.inl ⟨eq_top_of_isTrue isTrue, rfl⟩)
      · have equal := eq_bottom_of_isFalse isFalse
        exact .inr (.inr (.inl ⟨.inl equal, equal⟩))
    case isFalse => exact .inr (.inr (.inr rfl))

theorem holds_substitute_and :
    ((f.and g).substitute substitution).Holds values ↔
      (f.substitute substitution).Holds values ∧ (g.substitute substitution).Holds values := by
  have never : ¬ (bottom.substitute substitution).Holds values := fun holds =>
    holds.not_fails fails_bottom
  rcases and_eq f g with ⟨rfl, equal⟩ | ⟨rfl, equal⟩ | ⟨rfl | rfl, equal⟩ | equal
  · rw [equal]
    exact (and_iff_right holds_top).symm
  · rw [equal]
    exact (and_iff_left holds_top).symm
  · rw [equal]
    exact iff_of_false never fun both => never both.1
  · rw [equal]
    exact iff_of_false never fun both => never both.2
  · rw [equal]
    exact holds_binary_and

theorem fails_of_fails_substitute_and
    (fails : ((f.and g).substitute substitution).Fails values) :
    (f.substitute substitution).Fails values ∨ (g.substitute substitution).Fails values := by
  rcases and_eq f g with ⟨rfl, equal⟩ | ⟨rfl, equal⟩ | ⟨rfl | rfl, equal⟩ | equal
  · exact .inr (equal ▸ fails)
  · exact .inl (equal ▸ fails)
  · exact .inl (equal ▸ fails)
  · exact .inr (equal ▸ fails)
  · rw [equal] at fails
    exact fails_of_fails_binary_and fails

theorem holds_conjunction_substitute {formulas : List Formula} :
    ((conjunction formulas).substitute substitution).Holds values ↔
      ∀ f ∈ formulas, (f.substitute substitution).Holds values := by
  suffices general : ∀ start : Formula,
      ((formulas.foldl and start).substitute substitution).Holds values ↔
        (start.substitute substitution).Holds values ∧
          ∀ f ∈ formulas, (f.substitute substitution).Holds values from
    (general top).trans (and_iff_right holds_top)
  induction formulas with
  | nil => simp
  | cons f rest induction =>
      intro start
      rw [List.foldl_cons, induction, holds_substitute_and, List.forall_mem_cons, and_assoc]

theorem exists_fails_of_fails_conjunction {formulas : List Formula}
    (fails : ((conjunction formulas).substitute substitution).Fails values) :
    ∃ f ∈ formulas, (f.substitute substitution).Fails values := by
  suffices general : ∀ start : Formula,
      ((formulas.foldl and start).substitute substitution).Fails values →
        (start.substitute substitution).Fails values ∨
          ∃ f ∈ formulas, (f.substitute substitution).Fails values from
    (general top fails).resolve_left holds_top.not_fails
  clear fails
  induction formulas with
  | nil => exact fun _ => .inl
  | cons f rest induction =>
      intro start fails
      rcases induction (start.and f) fails with here | ⟨other, member, later⟩
      · exact (fails_of_fails_substitute_and here).imp_right fun fails =>
          ⟨f, List.mem_cons_self, fails⟩
      · exact .inr ⟨other, List.mem_cons_of_mem _ member, later⟩

end Substitution

end Inhabit.Formula
