import Inhabit.Proofs.Collections.Extensionality
import Inhabit.Proofs.Solving.HornForm

/-! Weakening finds the greatest solution.

A round drops what the antecedent of a broken clause does not imply. A solution below that
satisfies the clause chooses nothing of this, and so it stays below in every round until
nothing is broken. For clauses in Horn form a round that drops nothing means that no
solution below satisfies the clause. -/

namespace Inhabit

/-! ## Rounds -/

private theorem weight_insert {unknown : String} {valuation : Valuation} (other : Valuation)
    {entries : List (String × Valuation)} (increasing : KeysIncrease entries)
    (found : Entries.find? unknown entries = some valuation) :
    let weight (entries : List (String × Valuation)) :=
      (entries.map Prod.snd).foldr (fun valuation weight => valuation.size + weight) 0
    weight (Entries.insert unknown other entries) + valuation.size =
      weight entries + other.size := by
  intro weight
  induction entries with
  | nil => cases found
  | cons head rest induction =>
      obtain ⟨name, old⟩ := head
      have parts := List.pairwise_cons.mp increasing
      cases order : compare unknown name with
      | lt =>
          have below : ∀ entry ∈ (name, old) :: rest, compare unknown entry.1 = .lt :=
            List.forall_mem_cons.mpr
              ⟨order, fun entry member => Std.TransCmp.lt_trans order (parts.1 entry member)⟩
          rw [Entries.find?_eq_none_of_lt below] at found
          cases found
      | eq =>
          rw [Entries.find?, if_pos order, Option.some_inj] at found
          simp only [weight, Entries.insert, order, List.map_cons, List.foldr_cons, found]
          omega
      | gt =>
          rw [Entries.find?, if_neg (by simp [order])] at found
          have later := induction parts.2 found
          simp only [weight, Entries.insert, order, List.map_cons, List.foldr_cons] at later ⊢
          omega

theorem Solution.weight_insert_lt {solution : Solution} {unknown : String}
    {valuation fewer : Valuation} (found : solution.find? unknown = some valuation)
    (less : fewer.size < valuation.size) :
    Solution.weight (solution.insert unknown fewer) < solution.weight := by
  have exchanged := weight_insert fewer solution.increasing found
  change Solution.weight (solution.insert unknown fewer) + valuation.size =
    solution.weight + fewer.size at exchanged
  omega

section Rounds

variable {bound : Int64} {clause : HornClause} {clauses : List HornClause}
  {solution weaker lower : Solution} {unknown : String}

theorem HornClause.of_firstBroken_eq_some
    (broken : firstBroken bound solution clauses = .ok (some clause)) :
    clause ∈ clauses ∧ clause.holds bound solution = .ok false := by
  induction clauses with
  | nil => cases broken
  | cons first rest induction =>
      rcases Except.exists_of_bind_ok broken with ⟨holds, checked, broken⟩
      cases holds with
      | false =>
          cases broken
          exact ⟨List.mem_cons_self, checked⟩
      | true => exact (induction broken).imp_left (List.mem_cons_of_mem _)

/-- The clause with a single qualifier in the place of an unknown of the consequent. -/
def HornClause.narrowed (clause : HornClause) (solution : Solution) (unknown : String)
    (qualifier : Formula) : Formula :=
  (clause.antecedent.applySolution solution).implies
    (clause.consequent.applySolution (solution.insert unknown (.singleton qualifier)))

theorem HornClause.impliedQualifiers_eq :
    clause.impliedQualifiers bound solution unknown =
      ((solution.chosen unknown).toList.filterM fun qualifier =>
        (clause.narrowed solution unknown qualifier).isValid bound).map SortedSet.ofList := by
  change ((solution.chosen unknown).toList.filterM fun qualifier =>
    (clause.narrowed solution unknown qualifier).isValid bound) >>=
      (fun implied => pure (SortedSet.ofList implied)) = _
  cases (solution.chosen unknown).toList.filterM fun qualifier =>
    (clause.narrowed solution unknown qualifier).isValid bound <;> rfl

theorem HornClause.of_impliedQualifiers_eq_ok {implied : Valuation}
    (ran : clause.impliedQualifiers bound solution unknown = .ok implied) :
    ∃ passes : Formula → Bool,
      (∀ qualifier ∈ solution.chosen unknown,
        (clause.narrowed solution unknown qualifier).isValid bound =
          .ok (passes qualifier)) ∧
      implied = (solution.chosen unknown).filter passes := by
  rcases Except.exists_of_bind_ok ran with ⟨kept, filtered, equal⟩
  rcases exists_of_filterM_eq_ok filtered with ⟨passes, checked, rfl⟩
  cases equal
  refine ⟨passes, checked, SortedSet.eq_of_mem_iff fun qualifier => ?_⟩
  rw [SortedSet.mem_ofList, List.mem_filter, SortedSet.mem_filter]
  rfl

/-- A qualifier that a solution below chooses is not dropped if the clause holds under that
solution. -/
theorem HornClause.InHornForm.not_dropped (form : clause.InHornForm)
    (nonnegative : 0 ≤ bound.toInt) (below : lower.Below solution)
    (holds : clause.holds bound lower = .ok true)
    (occurs : unknown ∈ clause.consequent.unknownOccurrences) {qualifier : Formula}
    (member : qualifier ∈ lower.chosen unknown) :
    (clause.narrowed solution unknown qualifier).isValid bound ≠ .ok false := by
  intro invalid
  rcases Formula.exists_fails_of_isValid nonnegative invalid with ⟨values, inRange, fails⟩
  rcases Formula.fails_implies.mp fails with ⟨premise, conclusion⟩
  have sound := (Formula.isValid_iff nonnegative).mp holds values inRange
  rcases Formula.fails_or_holds_of_implies sound with premiseFails | conclusionHolds
  · exact form.premise.not_fails below premise premiseFails
  · exact form.conclusion.not_fails_singleton conclusionHolds occurs member conclusion

theorem HornClause.contains_weakenFor {unknowns : List String}
    (weakened : clause.weakenFor bound unknowns solution = .ok weaker) (other : String) :
    weaker.contains other = solution.contains other := by
  induction unknowns generalizing solution with
  | nil =>
      cases weakened
      rfl
  | cons unknown rest induction =>
      rcases Except.exists_of_bind_ok weakened with ⟨implied, selected, weakened⟩
      rcases HornClause.of_impliedQualifiers_eq_ok selected with ⟨passes, _, rfl⟩
      split at weakened
      · exact induction weakened
      · rename_i smaller
        rw [induction weakened]
        exact Solution.contains_insert_of_contains
          (Solution.contains_of_size_filter_ne smaller) _ _

theorem HornClause.below_weakenFor {unknowns : List String}
    (weakened : clause.weakenFor bound unknowns solution = .ok weaker) :
    weaker.Below solution :=
  ⟨HornClause.contains_weakenFor weakened, (HornClause.weakerThan_weakenFor weakened).fewer⟩

theorem HornClause.InHornForm.below_of_weakenFor (form : clause.InHornForm)
    (nonnegative : 0 ≤ bound.toInt) {unknowns : List String}
    (occur : ∀ unknown ∈ unknowns, unknown ∈ clause.consequent.unknownOccurrences)
    (weakened : clause.weakenFor bound unknowns solution = .ok weaker)
    (below : lower.Below solution) (holds : clause.holds bound lower = .ok true) :
    lower.Below weaker := by
  induction unknowns generalizing solution with
  | nil =>
      cases weakened
      exact below
  | cons unknown rest induction =>
      rcases List.forall_mem_cons.mp occur with ⟨occurs, others⟩
      rcases Except.exists_of_bind_ok weakened with ⟨implied, selected, weakened⟩
      rcases HornClause.of_impliedQualifiers_eq_ok selected with ⟨passes, checked, rfl⟩
      split at weakened
      · exact induction others weakened below
      · rename_i smaller
        apply induction others weakened
        apply below.insert (Solution.contains_of_size_filter_ne smaller)
        intro qualifier member
        have chosen := below.fewer unknown qualifier member
        refine SortedSet.mem_filter.mpr ⟨chosen, Bool.of_not_eq_false fun dropped => ?_⟩
        apply form.not_dropped nonnegative below holds occurs member
        rw [checked qualifier chosen, dropped]

/-- A round that drops nothing is for a clause that holds under no solution below. -/
theorem HornClause.InHornForm.weight_lt (form : clause.InHornForm)
    (nonnegative : 0 ≤ bound.toInt) (broken : clause.holds bound solution = .ok false)
    (weakened : clause.weakenFor bound clause.consequent.unknowns.toList solution =
      .ok weaker)
    (below : lower.Below solution) (holds : clause.holds bound lower = .ok true) :
    weaker.weight < solution.weight := by
  rcases Formula.exists_fails_of_isValid nonnegative broken with ⟨values, inRange, fails⟩
  rcases Formula.fails_implies.mp fails with ⟨premise, conclusion⟩
  change (clause.consequent.applySolution solution).Fails values at conclusion
  -- Without an unknown in its conclusion, the clause would be broken below as well.
  rcases form.conclusion.unknowns_cases with known | ⟨unknown, alone, occurs⟩
  · have sound := (Formula.isValid_iff nonnegative).mp holds values inRange
    rw [known.applySolution] at conclusion
    rcases Formula.fails_or_holds_of_implies sound with premiseFails | conclusionHolds
    · exact absurd premiseFails (form.premise.not_fails below premise)
    · change (clause.consequent.applySolution lower).Holds values at conclusionHolds
      rw [known.applySolution] at conclusionHolds
      exact absurd conclusion conclusionHolds.not_fails
  · rw [alone] at weakened
    rcases form.conclusion.exists_fails_singleton conclusion occurs with
      ⟨qualifier, chosen, refuted⟩
    rcases Except.exists_of_bind_ok weakened with ⟨implied, selected, weakened⟩
    rcases HornClause.of_impliedQualifiers_eq_ok selected with ⟨passes, checked, rfl⟩
    have dropped : ¬ passes qualifier = true := fun passed =>
      ((Formula.isValid_iff nonnegative).mp (passed ▸ checked qualifier chosen) values
        inRange).not_fails (Formula.fails_implies.mpr ⟨premise, refuted⟩)
    have smaller : ((solution.chosen unknown).filter passes).size <
        (solution.chosen unknown).size :=
      List.length_filter_lt_length_iff_exists.mpr ⟨qualifier, chosen, dropped⟩
    split at weakened
    · exact absurd ‹_› (Nat.ne_of_lt smaller)
    · cases weakened
      rcases Option.isSome_iff_exists.mp (Solution.contains_of_size_filter_ne (Nat.ne_of_lt smaller)) with
        ⟨valuation, found⟩
      rw [Solution.chosen_eq found] at smaller ⊢
      exact Solution.weight_insert_lt found smaller

end Rounds

/-! ## The greatest solution -/

namespace Solution

structure Solves (bound : Int64) (clauses : List HornClause) (solution lower : Solution) :
    Prop where
  below : lower.Below solution
  holds : ∀ clause ∈ clauses, clause.holds bound lower = .ok true

/-- The final solution solves the clauses and is above all others that do. -/
structure Greatest (bound : Int64) (clauses : List HornClause) (solution final : Solution) :
    Prop where
  solves : solution.Solves bound clauses final
  above : ∀ lower, solution.Solves bound clauses lower → lower.Below final

section Greatest

variable {bound : Int64} {clauses : List HornClause} {solution final : Solution}

theorem below_of_weakens (weakens : solution.Weakens bound clauses final) :
    final.Below solution := by
  induction weakens with
  | done => exact .refl _
  | round _ dropped _ induction => exact induction.trans (HornClause.below_weakenFor dropped)

theorem Weakens.greatest (weakens : solution.Weakens bound clauses final)
    (nonnegative : 0 ≤ bound.toInt) (forms : ∀ clause ∈ clauses, clause.InHornForm) :
    solution.Greatest bound clauses final where
  solves := ⟨below_of_weakens weakens, weakens.holds⟩
  above lower solves := by
    have below := solves.below
    induction weakens with
    | done => exact below
    | round broken dropped _ induction =>
        have listed := (HornClause.of_firstBroken_eq_some broken).1
        have next := (forms _ listed).below_of_weakenFor nonnegative
          (fun _ => SortedSet.mem_ofList.mp) dropped below (solves.holds _ listed)
        exact induction ⟨next, solves.holds⟩ next

theorem not_solves_of_weaken (nonnegative : 0 ≤ bound.toInt)
    (forms : ∀ clause ∈ clauses, clause.InHornForm)
    (failed : solution.weaken bound clauses = .ok none) (lower : Solution) :
    ¬ solution.Solves bound clauses lower := by
  intro solves
  induction solution using weaken.induct with
  | case1 solution induction =>
      rw [weaken] at failed
      rcases Except.exists_of_bind_ok failed with ⟨first, checked, failed⟩
      cases first with
      | none => cases failed
      | some clause =>
          rcases HornClause.of_firstBroken_eq_some checked with ⟨listed, broken⟩
          rcases Except.exists_of_bind_ok failed with ⟨weaker, dropped, failed⟩
          have form := forms clause listed
          have holds := solves.holds clause listed
          have lighter := form.weight_lt nonnegative broken dropped solves.below holds
          rw [if_pos lighter] at failed
          refine induction weaker lighter failed ⟨?_, solves.holds⟩
          exact form.below_of_weakenFor nonnegative (fun _ => SortedSet.mem_ofList.mp)
            dropped solves.below holds

/-- Weakening by clauses in Horn form finds a solution if there is one, and then the
greatest. -/
theorem weakening_finds_greatest (nonnegative : 0 ≤ bound.toInt)
    (forms : ∀ clause ∈ clauses, clause.InHornForm)
    (proper : solution.weaken bound clauses ≠ .error .negationOverflow) :
    ∃ outcome, solution.weaken bound clauses = .ok outcome ∧
      (outcome.isSome ↔ ∃ lower, solution.Solves bound clauses lower) ∧
      ∀ final, outcome = some final → solution.Greatest bound clauses final := by
  cases ran : solution.weaken bound clauses with
  | error trap => exact absurd ran proper
  | ok outcome =>
      have greatest (final : Solution) (found : outcome = some final) :
          solution.Greatest bound clauses final :=
        (weakens_of_weaken (found ▸ ran)).greatest nonnegative forms
      refine ⟨outcome, rfl, ?_, greatest⟩
      constructor
      · intro found
        rcases Option.isSome_iff_exists.mp found with ⟨final, found⟩
        exact ⟨final, (greatest final found).solves⟩
      · rintro ⟨lower, solves⟩
        cases outcome with
        | none => exact absurd solves (not_solves_of_weaken nonnegative forms ran lower)
        | some final => rfl

end Greatest

/-! A counter that starts at one, of which a bound is found from below but not from
above. -/

def counter : Formula := .var .int "x"

def counterClauses : List HornClause := [
  ⟨.equals counter (.int 1), .unknown [] "p"⟩,
  ⟨.binary .and (.unknown [] "p") (.lessThan counter (.int 2)),
    .binary .or (.lessThan counter (.int 0))
      (.unknown [("x", .binary .plus counter (.int 1))] "p")⟩]

def counterSolution : Solution :=
  .singleton "p" (.ofList [.atLeast counter (.int 0), .lessThan counter (.int 2)])

theorem counterClauses_inHornForm : ∀ clause ∈ counterClauses, clause.InHornForm := by
  unfold counterClauses
  refine List.forall_mem_cons.mpr ⟨⟨.known rfl, .unknown _ _⟩, ?_⟩
  refine List.forall_mem_cons.mpr ⟨?_, List.forall_mem_nil _⟩
  exact ⟨.and (.unknown _ _) (.known rfl), .knownOr (by rfl) _ _⟩

theorem counter_bounded_below :
    (∀ clause ∈ counterClauses, clause.InHornForm) ∧
      counterSolution.weaken 3 counterClauses ≠ .error .negationOverflow ∧
      counterSolution.Greatest 3 counterClauses
        (.singleton "p" (.ofList [.atLeast counter (.int 0)])) := by
  have ran : (counterSolution.weaken 3 counterClauses).toOption =
      some (some (.singleton "p" (.ofList [.atLeast counter (.int 0)]))) := by
    decide +kernel
  have proper : counterSolution.weaken 3 counterClauses ≠ .error .negationOverflow :=
    Except.ne_error_of_toOption ran _
  refine ⟨counterClauses_inHornForm, proper, ?_⟩
  rcases weakening_finds_greatest (by decide) counterClauses_inHornForm proper with
    ⟨outcome, weakened, _, greatest⟩
  rw [weakened] at ran
  exact greatest _ (Option.some.inj ran)

end Solution

end Inhabit
