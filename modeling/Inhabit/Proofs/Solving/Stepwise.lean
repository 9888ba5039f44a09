import Inhabit.Proofs.Solving.Greatest
import Inhabit.Proofs.Solving.Survivors

/-! Refining step by step comes to the same as refining at once.

The greatest solution of some of the clauses is above all solutions of all of them. So it
does as a start for the rest, whatever has been dropped on the way there. -/

namespace Inhabit

namespace Solution

variable {bound : Int64} {early late clauses : List HornClause}
  {solution middle final other : Solution}

theorem Below.antisymm (low : final.Below other) (high : other.Below final) :
    final = other := by
  apply SortedMap.eq_of_find?
  intro unknown
  have contained := low.contains unknown
  have chosen : final.chosen unknown = other.chosen unknown :=
    SortedSet.eq_of_mem_iff fun qualifier =>
      ⟨low.fewer unknown qualifier, high.fewer unknown qualifier⟩
  rw [SortedMap.contains, SortedMap.contains] at contained
  cases here : final.find? unknown with
  | none =>
      rw [here] at contained
      exact (Option.not_isSome_iff_eq_none.mp (by simp [← contained])).symm
  | some valuation =>
      rw [here] at contained
      rcases Option.isSome_iff_exists.mp contained.symm with ⟨others, there⟩
      rw [chosen_eq here, chosen_eq there] at chosen
      rw [there, chosen]

theorem Solves.mono (more : ∀ clause ∈ early, clause ∈ late)
    (solves : solution.Solves bound late final) : solution.Solves bound early final :=
  ⟨solves.below, fun clause member => solves.holds clause (more clause member)⟩

/-- A solution of more clauses is found from the greatest one of some of them on. -/
theorem Greatest.solves_iff (greatest : solution.Greatest bound early middle)
    (more : ∀ clause ∈ early, clause ∈ late) :
    middle.Solves bound late final ↔ solution.Solves bound late final :=
  ⟨fun solves => ⟨solves.below.trans greatest.solves.below, solves.holds⟩,
    fun solves => ⟨greatest.above final (solves.mono more), solves.holds⟩⟩

theorem Greatest.iff_of_greatest (greatest : solution.Greatest bound early middle)
    (more : ∀ clause ∈ early, clause ∈ late) :
    middle.Greatest bound late final ↔ solution.Greatest bound late final :=
  ⟨fun least => ⟨(greatest.solves_iff more).mp least.solves,
      fun lower solves => least.above lower ((greatest.solves_iff more).mpr solves)⟩,
    fun least => ⟨(greatest.solves_iff more).mpr least.solves,
      fun lower solves => least.above lower ((greatest.solves_iff more).mp solves)⟩⟩

theorem Greatest.unique (greatest : solution.Greatest bound early final)
    (another : solution.Greatest bound late other)
    (same : ∀ clause, clause ∈ early ↔ clause ∈ late) : final = other :=
  (another.above final (greatest.solves.mono fun clause => (same clause).mpr)).antisymm
    (greatest.above other (another.solves.mono fun clause => (same clause).mp))

theorem Greatest.congr (greatest : solution.Greatest bound early final)
    (same : ∀ clause, clause ∈ early ↔ clause ∈ late) :
    solution.Greatest bound late final where
  solves := greatest.solves.mono fun clause => (same clause).mpr
  above other solves := greatest.above other (solves.mono fun clause => (same clause).mp)

theorem weaken_eq_some_iff (nonnegative : 0 ≤ bound.toInt)
    (forms : ∀ clause ∈ clauses, clause.InHornForm) {outcome : Option Solution}
    (ran : solution.weaken bound clauses = .ok outcome) :
    outcome = some final ↔ solution.Greatest bound clauses final := by
  constructor
  · rintro rfl
    exact (weakens_of_weaken ran).greatest nonnegative forms
  · intro greatest
    cases outcome with
    | none => exact absurd greatest.solves (not_solves_of_weaken nonnegative forms ran final)
    | some other =>
        have another := (weakens_of_weaken ran).greatest nonnegative forms
        rw [another.unique greatest fun _ => .rfl]

theorem withStrongest_eq_self {qualifiers : QualifierMap}
    (covered : ∀ unknown, qualifiers.contains unknown = true →
      solution.contains unknown = true) : solution.withStrongest qualifiers = solution := by
  apply SortedMap.eq_of_find?
  intro unknown
  rw [find?_withStrongest]
  cases found : solution.find? unknown with
  | some valuation => rfl
  | none =>
      cases recorded : qualifiers.find? unknown with
      | none => rfl
      | some space =>
          have contained := covered unknown (by rw [SortedMap.contains, recorded]; rfl)
          rw [SortedMap.contains, found] at contained
          cases contained

end Solution

/-! ## Candidates -/

namespace Candidate

structure Refines (bound : Int64) (clauses : List HornClause) (qualifiers : QualifierMap)
    (candidate survivor : Candidate) : Prop where
  greatest : (candidate.solution.withStrongest qualifiers).Greatest bound
    (candidate.validClauses.toList ++ clauses) survivor.solution
  checked : survivor =
    { candidate with solution := survivor.solution }.withValid clauses

section Refines

variable {bound : Int64} {clauses first second both : List HornClause}
  {qualifiers : QualifierMap} {candidate middle survivor : Candidate}

theorem refine_eq_some_iff (nonnegative : 0 ≤ bound.toInt)
    (forms : ∀ clause ∈ candidate.validClauses.toList ++ clauses, clause.InHornForm)
    {outcome : Option Candidate}
    (ran : candidate.refine bound clauses qualifiers = .ok outcome) :
    outcome = some survivor ↔ candidate.Refines bound clauses qualifiers survivor := by
  rcases Except.exists_of_bind_ok ran with ⟨result, weakened, equal⟩
  have characterized {final : Solution} : result = some final ↔ _ :=
    Solution.weaken_eq_some_iff nonnegative forms weakened
  cases result with
  | none =>
      cases equal
      exact ⟨nofun, fun refines => nomatch characterized.mpr refines.greatest⟩
  | some solution =>
      cases equal
      constructor
      · rintro ⟨⟩
        exact ⟨characterized.mp rfl, rfl⟩
      · intro refines
        rw [refines.checked, Option.some.inj (characterized.mpr refines.greatest)]

theorem not_refines_of_refine (nonnegative : 0 ≤ bound.toInt)
    (forms : ∀ clause ∈ candidate.validClauses.toList ++ first, clause.InHornForm)
    (failed : candidate.refine bound first qualifiers = .ok none)
    (more : ∀ clause ∈ first, clause ∈ both) :
    ¬ candidate.Refines bound both qualifiers survivor := by
  intro refines
  rcases Except.exists_of_bind_ok failed with ⟨result, weakened, equal⟩
  cases result with
  | none =>
      apply Solution.not_solves_of_weaken nonnegative forms weakened survivor.solution
      apply refines.greatest.solves.mono
      intro clause member
      rcases List.mem_append.mp member with old | new
      · exact List.mem_append_left _ old
      · exact List.mem_append_right _ (more clause new)
  | some _ => cases equal

theorem Refines.validClauses_eq (refines : candidate.Refines bound first qualifiers middle) :
    middle.validClauses = candidate.validClauses.insertMany first :=
  congrArg validClauses refines.checked

theorem Refines.mem_clauses_iff (refines : candidate.Refines bound first qualifiers middle)
    (all : ∀ clause, clause ∈ both ↔ clause ∈ first ∨ clause ∈ second)
    {clause : HornClause} :
    clause ∈ middle.validClauses.toList ++ second ↔
      clause ∈ candidate.validClauses.toList ++ both := by
  rw [List.mem_append, List.mem_append, all, SortedSet.mem_toList, refines.validClauses_eq,
    SortedSet.mem_insertMany, SortedSet.mem_toList, or_assoc]

/-- A candidate that has survived some of the clauses survives the rest as it would have
survived all of them. -/
theorem Refines.iff_of_refines (refines : candidate.Refines bound first qualifiers middle)
    (all : ∀ clause, clause ∈ both ↔ clause ∈ first ∨ clause ∈ second) :
    middle.Refines bound second qualifiers survivor ↔
      candidate.Refines bound both qualifiers survivor := by
  -- The first refinement has given predicates to all unknowns that have a space.
  have settled : middle.solution.withStrongest qualifiers = middle.solution := by
    apply Solution.withStrongest_eq_self
    intro unknown recorded
    rw [refines.greatest.solves.below.contains]
    exact Solution.contains_withStrongest recorded _
  have solutions : (middle.solution.withStrongest qualifiers).Greatest bound
      (middle.validClauses.toList ++ second) survivor.solution ↔
      (candidate.solution.withStrongest qualifiers).Greatest bound
        (candidate.validClauses.toList ++ both) survivor.solution := by
    rw [settled, refines.greatest.iff_of_greatest]
    · exact ⟨fun greatest => greatest.congr fun _ => refines.mem_clauses_iff all,
        fun greatest => greatest.congr fun _ => (refines.mem_clauses_iff all).symm⟩
    · intro clause member
      rw [refines.mem_clauses_iff all, List.mem_append, all]
      rcases List.mem_append.mp member with old | new
      · exact .inl old
      · exact .inr (.inl new)
  have clauses : middle.validClauses.insertMany second =
      candidate.validClauses.insertMany both :=
    SortedSet.eq_of_mem_iff fun clause => by
      rw [SortedSet.mem_insertMany, SortedSet.mem_insertMany, all, refines.validClauses_eq,
        SortedSet.mem_insertMany, or_assoc]
  have records : { middle with solution := survivor.solution }.withValid second =
      { candidate with solution := survivor.solution }.withValid both := by
    unfold withValid
    rw [clauses, refines.checked]
    rfl
  constructor
  · intro later
    exact ⟨solutions.mp later.greatest, later.checked.trans records⟩
  · intro atOnce
    exact ⟨solutions.mpr atOnce.greatest, atOnce.checked.trans records.symm⟩

theorem refineAll_stepwise (nonnegative : 0 ≤ bound.toInt)
    (all : ∀ clause, clause ∈ both ↔ clause ∈ first ∨ clause ∈ second)
    {candidates middles survivors others : List Candidate}
    (forms : ∀ candidate ∈ candidates,
      ∀ clause ∈ candidate.validClauses.toList ++ both, clause.InHornForm)
    (early : refineAll bound first qualifiers candidates = .ok middles)
    (late : refineAll bound second qualifiers middles = .ok survivors)
    (atOnce : refineAll bound both qualifiers candidates = .ok others) :
    survivors = others := by
  induction candidates generalizing middles survivors others with
  | nil =>
      cases early
      cases late
      cases atOnce
      rfl
  | cons candidate rest induction =>
      rcases List.forall_mem_cons.mp forms with ⟨formsHere, formsThere⟩
      have more (clause : HornClause) (member : clause ∈ first) : clause ∈ both :=
        (all clause).mpr (.inl member)
      have formsFirst : ∀ clause ∈ candidate.validClauses.toList ++ first,
          clause.InHornForm := by
        intro clause member
        apply formsHere
        exact List.mem_append.mpr ((List.mem_append.mp member).imp_right (more clause))
      rcases Except.exists_of_bind_ok early with ⟨middle, refinesFirst, early⟩
      rcases Except.exists_of_bind_ok atOnce with ⟨other, refinesBoth, atOnce⟩
      have characterized {survivor : Candidate} : other = some survivor ↔ _ :=
        refine_eq_some_iff nonnegative formsHere refinesBoth
      cases middle with
      | none =>
          -- What does not survive some of the clauses does not survive all of them.
          cases other with
          | none => exact induction formsThere early late atOnce
          | some other =>
              exact absurd (characterized.mp rfl)
                (not_refines_of_refine nonnegative formsFirst refinesFirst more)
      | some middle =>
          rcases Except.exists_of_bind_ok early with ⟨middles, earlyRest, equal⟩
          cases equal
          rcases Except.exists_of_bind_ok late with ⟨survivor, refinesSecond, late⟩
          have refines := (refine_eq_some_iff nonnegative formsFirst refinesFirst).mp rfl
          have formsSecond : ∀ clause ∈ middle.validClauses.toList ++ second,
              clause.InHornForm :=
            fun clause member => formsHere clause ((refines.mem_clauses_iff all).mp member)
          -- Either way the survivor is the one with the greatest solution of all the clauses.
          have agree : survivor = other := Option.ext fun result =>
            (refine_eq_some_iff nonnegative formsSecond refinesSecond).trans
              ((refines.iff_of_refines all).trans characterized.symm)
          subst agree
          cases survivor with
          | none => exact induction formsThere earlyRest late atOnce
          | some survivor =>
              rcases Except.exists_of_bind_ok late with ⟨survivors, lateRest, equal⟩
              cases equal
              rcases Except.exists_of_bind_ok atOnce with ⟨others, atOnceRest, equal⟩
              cases equal
              rw [induction formsThere earlyRest lateRest atOnceRest]

end Refines

end Candidate

/-! ## Answers -/

theorem Solving.run_bind {σ α β : Type} (first : Solving σ α) (next : α → Solving σ β)
    (memory : σ) :
    (first >>= next).run memory =
      match first.run memory with
      | (.ok value, after) => (next value).run after
      | (.error interrupt, after) => (.error interrupt, after) := by
  change (ExceptT.bindCont next (first.run memory).1) (first.run memory).2 = _
  rcases first.run memory with ⟨_ | _, after⟩
  · rfl
  · rfl

namespace Solver

variable {bound : Int64} {first second both : List HornClause} {qualifiers : QualifierMap}

theorem answer_bounded_bind (program next : Program) (candidates : List Candidate)
    (tally : BoundedTally) :
    (((bounded bound).refine first qualifiers program candidates >>=
        (bounded bound).refine second qualifiers next).run tally).1 =
      (Candidate.refineAll bound first qualifiers candidates >>=
        Candidate.refineAll bound second qualifiers).mapError .trapped := by
  rw [Solving.run_bind]
  rcases ran : ((bounded bound).refine first qualifiers program candidates).run tally with
    ⟨result, after⟩
  have answer := congrArg Prod.fst ran
  rw [answer_bounded] at answer
  cases refined : Candidate.refineAll bound first qualifiers candidates with
  | error trap =>
      rw [refined] at answer
      cases answer
      rfl
  | ok middles =>
      rw [refined] at answer
      cases answer
      exact answer_bounded next middles after

/-- Refining by clauses in Horn form and then by more of them leaves the same candidates as
refining by all of them at once, in any order. -/
theorem stepwise_refinement (nonnegative : 0 ≤ bound.toInt)
    (permuted : both.Perm (first ++ second)) {candidates : List Candidate}
    (forms : ∀ candidate ∈ candidates,
      ∀ clause ∈ candidate.validClauses.toList ++ both, clause.InHornForm)
    {program next whole : Program} {tally other : BoundedTally}
    (stepwise : (((bounded bound).refine first qualifiers program candidates >>=
        (bounded bound).refine second qualifiers next).run tally).1 ≠
      .error (.trapped .negationOverflow))
    (atOnce : (((bounded bound).refine both qualifiers whole candidates).run other).1 ≠
      .error (.trapped .negationOverflow)) :
    ∃ survivors,
      (((bounded bound).refine first qualifiers program candidates >>=
          (bounded bound).refine second qualifiers next).run tally).1 = .ok survivors ∧
      (((bounded bound).refine both qualifiers whole candidates).run other).1 =
        .ok survivors := by
  rw [answer_bounded_bind] at stepwise ⊢
  rw [answer_bounded] at atOnce ⊢
  have all (clause : HornClause) : clause ∈ both ↔ clause ∈ first ∨ clause ∈ second :=
    permuted.mem_iff.trans List.mem_append
  cases ran : (Candidate.refineAll bound first qualifiers candidates >>=
      Candidate.refineAll bound second qualifiers : Except Trap (List Candidate)) with
  | error trap => exact absurd (ran ▸ rfl) stepwise
  | ok survivors =>
      rcases Except.exists_of_bind_ok ran with ⟨middles, early, late⟩
      cases ranOnce : Candidate.refineAll bound both qualifiers candidates with
      | error trap => exact absurd (ranOnce ▸ rfl) atOnce
      | ok others =>
          have agree := Candidate.refineAll_stepwise nonnegative all forms early late ranOnce
          exact ⟨survivors, rfl, agree ▸ rfl⟩

def counterQualifiers : QualifierMap :=
  .singleton "p" (.ofList [
    .atLeast Solution.counter (.int 0), .lessThan Solution.counter (.int 2)])

/-- The first clause on the counter breaks nothing before the second one comes. -/
theorem counter_refined_stepwise :
    let candidate : Candidate := { label := "0" }
    let survivor : Candidate := {
      solution := .singleton "p" (.ofList [.atLeast Solution.counter (.int 0)])
      validClauses := .ofList Solution.counterClauses
      label := "0" }
    ((((bounded 3).refine (Solution.counterClauses.take 1) counterQualifiers default
          [candidate]) >>=
        (bounded 3).refine (Solution.counterClauses.drop 1) counterQualifiers default).run
        {}).1 = .ok [survivor] ∧
      (((bounded 3).refine Solution.counterClauses.reverse counterQualifiers default
        [candidate]).run {}).1 = .ok [survivor] := by
  intro candidate survivor
  have ran : ((((bounded 3).refine (Solution.counterClauses.take 1) counterQualifiers default
        [candidate]) >>=
      (bounded 3).refine (Solution.counterClauses.drop 1) counterQualifiers default).run
      {}).1.toOption = some [survivor] := by
    decide +kernel
  have ranOnce : (((bounded 3).refine Solution.counterClauses.reverse counterQualifiers
      default [candidate]).run {}).1.toOption = some [survivor] := by
    decide +kernel
  have proper : ((((bounded 3).refine (Solution.counterClauses.take 1) counterQualifiers
        default [candidate]) >>=
      (bounded 3).refine (Solution.counterClauses.drop 1) counterQualifiers default).run
      {}).1 ≠ .error (.trapped .negationOverflow) := Except.ne_error_of_toOption ran _
  have properOnce : (((bounded 3).refine Solution.counterClauses.reverse counterQualifiers
      default [candidate]).run {}).1 ≠ .error (.trapped .negationOverflow) :=
    Except.ne_error_of_toOption ranOnce _
  have permuted : Solution.counterClauses.reverse.Perm
      (Solution.counterClauses.take 1 ++ Solution.counterClauses.drop 1) := by
    rw [List.take_append_drop]
    exact List.reverse_perm _
  have forms : ∀ other ∈ [candidate], ∀ clause ∈
      other.validClauses.toList ++ Solution.counterClauses.reverse, clause.InHornForm := by
    rw [List.forall_mem_singleton]
    intro clause member
    exact Solution.counterClauses_inHornForm clause (List.mem_reverse.mp member)
  rcases stepwise_refinement (by decide) permuted forms proper properOnce with
    ⟨survivors, stepwise, atOnce⟩
  rw [stepwise] at ran
  cases ran
  exact ⟨stepwise, atOnce⟩

end Solver

end Inhabit
