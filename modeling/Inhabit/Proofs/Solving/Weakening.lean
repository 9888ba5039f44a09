import Inhabit.Proofs.Validity.Bounded
import Inhabit.Solving.Weakening

/-! What a solver that weakens solutions leaves of them.

Weakening goes on while a clause is broken, and drops qualifiers only. So a solution
that it returns has every clause hold, speaks of all unknowns that it did before, and
has no new qualifiers. -/

namespace Inhabit

theorem exists_of_filterM_eq_ok {ε α : Type} {keep : α → Except ε Bool}
    {elements kept : List α} (ran : elements.filterM keep = .ok kept) :
    ∃ passes : α → Bool, (∀ element ∈ elements, keep element = .ok (passes element)) ∧
      kept = elements.filter passes := by
  let passes (element : α) : Bool := (keep element).toOption.getD false
  have decided (rest : List α) : ∀ done result,
      List.filterAuxM keep rest done = .ok result →
        (∀ element ∈ rest, keep element = .ok (passes element)) ∧
          result = (rest.filter passes).reverse ++ done := by
    induction rest with
    | nil =>
        rintro done _ ⟨⟩
        exact ⟨List.forall_mem_nil _, rfl⟩
    | cons first rest induction =>
        intro done result ran
        rcases Except.exists_of_bind_ok ran with ⟨keeps, decision, ran⟩
        rcases induction _ result ran with ⟨others, rfl⟩
        have here : passes first = keeps := by simp only [passes, decision]; rfl
        refine ⟨List.forall_mem_cons.mpr ⟨here ▸ decision, others⟩, ?_⟩
        cases keeps with
        | false => rw [List.filter_cons_of_neg (by simp [here])]; rfl
        | true =>
            rw [List.filter_cons_of_pos here, List.reverse_cons, List.append_assoc]
            rfl
  rcases Except.exists_of_bind_ok ran with ⟨reversed, collected, ran⟩
  rcases decided elements [] reversed collected with ⟨all, rfl⟩
  cases ran
  exact ⟨passes, all, by rw [List.append_nil, List.reverse_reverse]⟩

/-! ## Solutions -/

namespace Solution

def chosen (solution : Solution) (unknown : String) : Valuation :=
  (solution.find? unknown).getD ∅

theorem chosen_eq {solution : Solution} {unknown : String} {valuation : Valuation}
    (found : solution.find? unknown = some valuation) : solution.chosen unknown = valuation :=
  congrArg (·.getD ∅) found

/-- Nothing is chosen that was not chosen before, and no unknown is forgotten. -/
structure WeakerThan (weaker solution : Solution) : Prop where
  fewer : ∀ unknown, ∀ qualifier ∈ weaker.chosen unknown, qualifier ∈ solution.chosen unknown
  contains : ∀ unknown, solution.contains unknown = true → weaker.contains unknown = true

variable {solution weaker : Solution}

theorem WeakerThan.refl (solution : Solution) : solution.WeakerThan solution :=
  ⟨fun _ _ => id, fun _ => id⟩

theorem WeakerThan.trans {first second third : Solution} (late : first.WeakerThan second)
    (early : second.WeakerThan third) : first.WeakerThan third where
  fewer unknown _ member := early.fewer unknown _ (late.fewer unknown _ member)
  contains unknown contained := late.contains unknown (early.contains unknown contained)

theorem chosen_insert (solution : Solution) (unknown other : String) (valuation : Valuation) :
    Solution.chosen (solution.insert unknown valuation) other =
      if other = unknown then valuation else solution.chosen other := by
  unfold chosen
  rw [SortedMap.find?_insert]
  split <;> rfl

theorem contains_insert {unknown other : String}
    (contained : solution.contains other = true) (valuation : Valuation) :
    (solution.insert unknown valuation).contains other = true := by
  rw [SortedMap.contains, SortedMap.find?_insert]
  split
  · rfl
  · exact contained

theorem weakerThan_insert {unknown : String} {valuation : Valuation}
    (fewer : ∀ qualifier ∈ valuation, qualifier ∈ solution.chosen unknown) :
    WeakerThan (solution.insert unknown valuation) solution where
  fewer other qualifier member := by
    rw [chosen_insert] at member
    split at member
    · subst other
      exact fewer qualifier member
    · exact member
  contains other contained := contains_insert contained valuation

end Solution

/-! ## Weakening -/

section Weakening

variable {bound : Int64} {clauses : List HornClause} {solution weaker : Solution}

theorem HornClause.firstBroken_eq_none
    (none : firstBroken bound solution clauses = .ok Option.none) :
    ∀ clause ∈ clauses, clause.holds bound solution = .ok true := by
  induction clauses with
  | nil => exact List.forall_mem_nil _
  | cons clause rest induction =>
      rcases Except.exists_of_bind_ok none with ⟨holds, checked, none⟩
      cases holds with
      | false => cases none
      | true => exact List.forall_mem_cons.mpr ⟨checked, induction none⟩

theorem HornClause.firstBroken_of_holds
    (holds : ∀ clause ∈ clauses, clause.holds bound solution = .ok true) :
    firstBroken bound solution clauses = .ok none := by
  induction clauses with
  | nil => rfl
  | cons clause rest induction =>
      rcases List.forall_mem_cons.mp holds with ⟨first, others⟩
      rw [firstBroken, first]
      exact induction others

theorem HornClause.weakerThan_weakenFor {clause : HornClause} {unknowns : List String}
    (weakened : clause.weakenFor bound unknowns solution = .ok weaker) :
    weaker.WeakerThan solution := by
  induction unknowns generalizing solution with
  | nil =>
      cases weakened
      exact .refl _
  | cons unknown rest induction =>
      rcases Except.exists_of_bind_ok weakened with ⟨implied, selected, weakened⟩
      rcases Except.exists_of_bind_ok selected with ⟨qualifiers, filtered, equal⟩
      cases equal
      split at weakened
      · exact induction weakened
      · apply (induction weakened).trans
        apply Solution.weakerThan_insert
        intro qualifier member
        rcases exists_of_filterM_eq_ok filtered with ⟨_, _, rfl⟩
        exact SortedSet.mem_toList.mp (List.mem_filter.mp (SortedSet.mem_ofList.mp member)).1

namespace Solution

inductive Weakens (bound : Int64) (clauses : List HornClause) :
    Solution → Solution → Prop where
  | done (solution : Solution)
      (holds : HornClause.firstBroken bound solution clauses = .ok none) :
      Weakens bound clauses solution solution
  | round {solution weaker result : Solution} {clause : HornClause}
      (broken : HornClause.firstBroken bound solution clauses = .ok (some clause))
      (dropped : clause.weakenFor bound clause.consequent.unknowns.toList solution =
        .ok weaker)
      (rest : Weakens bound clauses weaker result) : Weakens bound clauses solution result

theorem weakens_of_weaken (weakened : solution.weaken bound clauses = .ok (some weaker)) :
    solution.Weakens bound clauses weaker := by
  induction solution using weaken.induct with
  | case1 solution induction =>
      rw [weaken] at weakened
      rcases Except.exists_of_bind_ok weakened with ⟨first, checked, weakened⟩
      cases first with
      | none =>
          cases weakened
          exact .done _ checked
      | some clause =>
          rcases Except.exists_of_bind_ok weakened with ⟨next, dropped, weakened⟩
          split at weakened
          · rename_i lighter
            exact .round checked dropped (induction next lighter weakened)
          · cases weakened

theorem weaken_of_holds
    (holds : ∀ clause ∈ clauses, clause.holds bound solution = .ok true) :
    solution.weaken bound clauses = .ok (some solution) := by
  rw [weaken, HornClause.firstBroken_of_holds holds]
  rfl

theorem Weakens.holds (weakens : solution.Weakens bound clauses weaker) :
    ∀ clause ∈ clauses, clause.holds bound weaker = .ok true := by
  induction weakens with
  | done _ holds => exact HornClause.firstBroken_eq_none holds
  | round _ _ _ induction => exact induction

theorem Weakens.weakerThan (weakens : solution.Weakens bound clauses weaker) :
    weaker.WeakerThan solution := by
  induction weakens with
  | done => exact .refl _
  | round _ dropped _ induction =>
      exact induction.trans (HornClause.weakerThan_weakenFor dropped)

end Solution

end Weakening

end Inhabit
