import Inhabit.Proofs.Solving.Weakening
import Inhabit.Proofs.Unknowns.Solved

/-! Candidates that survive a bounded solver.

A survivor has been checked against the clauses of the candidate it comes from and the
new ones, all of which hold under its solution, and its solution covers every unknown
that has a space. -/

namespace Inhabit

/-! ## Strongest predicates -/

namespace Solution

variable {solution : Solution} {unknown : String} {qualifier : Formula}

theorem chosen_insertIfNew {other : String} {valuation : Valuation}
    (member : qualifier ∈ Solution.chosen (solution.insertIfNew other valuation) unknown) :
    qualifier ∈ solution.chosen unknown ∨ unknown = other ∧ qualifier ∈ valuation := by
  unfold SortedMap.insertIfNew at member
  split at member
  · exact .inl member
  · rw [chosen_insert] at member
    split at member
    · exact .inr ⟨‹_›, member⟩
    · exact .inl member

theorem find?_insertIfNew (solution : Solution) (unknown other : String)
    (valuation : Valuation) :
    (solution.insertIfNew unknown valuation).find? other =
      (solution.find? other).or (if other = unknown then some valuation else none) := by
  unfold SortedMap.insertIfNew
  split
  case isTrue contained =>
    rcases Option.isSome_iff_exists.mp contained with ⟨old, found⟩
    split
    case isTrue same => rw [same, found, Option.some_or]
    case isFalse => rw [Option.or_none]
  case isFalse missing =>
    rw [SortedMap.find?_insert]
    split
    case isTrue same =>
      rw [same, Option.not_isSome_iff_eq_none.mp missing, Option.none_or]
    case isFalse => rw [Option.or_none]

theorem find?_withStrongest (qualifiers : QualifierMap) (solution : Solution)
    (unknown : String) :
    (solution.withStrongest qualifiers).find? unknown =
      (solution.find? unknown).or ((qualifiers.find? unknown).map fun space =>
        .ofList (space.qualifiers.take space.maxCount)) := by
  unfold withStrongest
  change _ = (solution.find? unknown).or ((Entries.find? unknown qualifiers.entries).map _)
  generalize qualifiers.entries = entries
  induction entries generalizing solution with
  | nil => exact Option.or_none.symm
  | cons entry rest induction =>
      rw [List.foldl_cons, induction, find?_insertIfNew, Option.or_assoc, Entries.find?]
      by_cases same : unknown = entry.1
      · rw [if_pos same, if_pos (same ▸ Std.ReflOrd.compare_self), Option.some_or]
        rfl
      · have different : compare unknown entry.1 ≠ .eq := fun equal =>
          same (Std.LawfulEqOrd.eq_of_compare equal)
        rw [if_neg same, if_neg different, Option.none_or]

theorem contains_withStrongest {qualifiers : QualifierMap}
    (recorded : qualifiers.contains unknown = true) (solution : Solution) :
    (solution.withStrongest qualifiers).contains unknown = true := by
  rcases Option.isSome_iff_exists.mp recorded with ⟨space, found⟩
  rw [SortedMap.contains, find?_withStrongest, found]
  cases solution.find? unknown <;> rfl

theorem chosen_withStrongest {qualifiers : QualifierMap}
    (member : qualifier ∈ Solution.chosen (solution.withStrongest qualifiers) unknown) :
    qualifier ∈ solution.chosen unknown ∨
      ∃ space, qualifiers.find? unknown = some space ∧ qualifier ∈ space.qualifiers := by
  rw [chosen, find?_withStrongest] at member
  unfold chosen
  cases old : solution.find? unknown with
  | some valuation =>
      rw [old] at member
      exact .inl member
  | none =>
      rw [old, Option.none_or] at member
      cases found : qualifiers.find? unknown with
      | none =>
          rw [found] at member
          exact absurd member (SortedSet.not_mem_empty _)
      | some space =>
          rw [found] at member
          exact .inr ⟨space, rfl, List.mem_of_mem_take (SortedSet.mem_ofList.mp member)⟩

end Solution

/-! ## Survivors -/

structure Candidate.Survives (bound : Int64) (clauses : List HornClause)
    (qualifiers : QualifierMap) (candidate survivor : Candidate) : Prop where
  checked : survivor.validClauses = candidate.validClauses.insertMany clauses
  holds : ∀ clause ∈ survivor.validClauses, clause.holds bound survivor.solution = .ok true
  weaker : survivor.solution.WeakerThan (candidate.solution.withStrongest qualifiers)

section Survivors

variable {bound : Int64} {clauses : List HornClause} {qualifiers : QualifierMap}

theorem Candidate.survives_of_refine {candidate survivor : Candidate}
    (refined : candidate.refine bound clauses qualifiers = .ok (some survivor)) :
    candidate.Survives bound clauses qualifiers survivor := by
  rcases Except.exists_of_bind_ok refined with ⟨result, weakened, equal⟩
  cases result with
  | none => cases equal
  | some solution =>
      cases equal
      have weakens := Solution.weakens_of_weaken weakened
      refine ⟨rfl, ?_, weakens.weakerThan⟩
      intro clause member
      apply weakens.holds clause
      exact (SortedSet.mem_insertMany.mp member).elim
        (fun old => List.mem_append_left _ (SortedSet.mem_toList.mpr old))
        (List.mem_append_right _)

theorem Candidate.survives_of_refineAll {candidates survivors : List Candidate}
    (refined : refineAll bound clauses qualifiers candidates = .ok survivors) :
    ∀ survivor ∈ survivors, ∃ candidate ∈ candidates,
      candidate.Survives bound clauses qualifiers survivor := by
  induction candidates generalizing survivors with
  | nil =>
      cases refined
      exact List.forall_mem_nil _
  | cons candidate rest induction =>
      rcases Except.exists_of_bind_ok refined with ⟨first, refines, refined⟩
      have later {others : List Candidate}
          (refined : refineAll bound clauses qualifiers rest = .ok others) :
          ∀ survivor ∈ others, ∃ other ∈ candidate :: rest,
            other.Survives bound clauses qualifiers survivor := by
        intro survivor member
        rcases induction refined survivor member with ⟨other, inside, survives⟩
        exact ⟨other, List.mem_cons_of_mem _ inside, survives⟩
      cases first with
      | none => exact later refined
      | some survivor =>
          rcases Except.exists_of_bind_ok refined with ⟨others, more, equal⟩
          cases equal
          exact List.forall_mem_cons.mpr
            ⟨⟨candidate, List.mem_cons_self, survives_of_refine refines⟩, later more⟩

theorem Solver.run_bounded {candidates survivors : List Candidate}
    (refined : Candidate.refineAll bound clauses qualifiers candidates = .ok survivors)
    (program : Program) (tally : BoundedTally) :
    ((Solver.bounded bound).refine clauses qualifiers program candidates).run tally =
      (.ok survivors, {
        calls := tally.calls + 1
        rejections := tally.rejections + if survivors.isEmpty then 1 else 0 }) := by
  simp only [Solver.bounded, refined]
  cases survivors <;> rfl

theorem Solver.answer_bounded (program : Program) (candidates : List Candidate)
    (tally : BoundedTally) :
    (((Solver.bounded bound).refine clauses qualifiers program candidates).run tally).1 =
      (Candidate.refineAll bound clauses qualifiers candidates).mapError .trapped := by
  simp only [Solver.bounded]
  cases Candidate.refineAll bound clauses qualifiers candidates with
  | error trap => rfl
  | ok survivors => cases survivors <;> rfl

theorem Solver.survives_of_bounded {program : Program} {candidates survivors : List Candidate}
    {tally after : BoundedTally}
    (ran : ((Solver.bounded bound).refine clauses qualifiers program candidates).run tally =
      (.ok survivors, after)) :
    ∀ survivor ∈ survivors, ∃ candidate ∈ candidates,
      candidate.Survives bound clauses qualifiers survivor := by
  have answered := congrArg Prod.fst ran
  rw [Solver.answer_bounded] at answered
  cases refined : Candidate.refineAll bound clauses qualifiers candidates with
  | error trap =>
      rw [refined] at answered
      cases answered
  | ok others =>
      rw [refined] at answered
      cases answered
      exact Candidate.survives_of_refineAll refined

end Survivors

theorem SearchState.solution_eq {state : SearchState} {first : Candidate}
    {rest : List Candidate} (candidates : state.candidates = first :: rest)
    (covers : ∀ unknown, state.qualifiers.contains unknown = true →
      first.solution.contains unknown = true) : state.solution = first.solution := by
  have covered : ∀ unknown ∈ state.qualifiers.keys,
      first.solution.contains unknown = true := by
    intro unknown member
    rcases List.mem_map.mp member with ⟨entry, listed, rfl⟩
    apply covers
    rw [SortedMap.contains, SortedMap.find?_of_mem_entries listed]
    rfl
  unfold solution
  rw [candidates]
  change state.qualifiers.keys.foldl _ first.solution = _
  revert covered
  generalize state.qualifiers.keys = unknowns
  induction unknowns with
  | nil => exact fun _ => rfl
  | cons unknown rest induction =>
      intro covered
      rw [List.foldl_cons, SortedMap.insertIfNew, if_pos (covered unknown List.mem_cons_self)]
      exact induction fun other member => covered other (List.mem_cons_of_mem _ member)

end Inhabit
