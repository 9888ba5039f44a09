import Inhabit.Proofs.Solving.Greatest
import Inhabit.Proofs.Solving.Survivors

/-! How long weakening goes on, and what becomes of candidates.

A round either drops a qualifier or is the last one, since a clause is given up as soon as
there is nothing left to drop for it. So the number of qualifiers bounds the rounds, in
whatever order clauses break again and again. -/

namespace Inhabit

variable {bound : Int64} {clauses : List HornClause} {qualifiers : QualifierMap}

/-! ## Rounds -/

namespace Solution

/-- A run of weakening, with its number of rounds. A round looks for a broken clause and drops
qualifiers for it. It is the last one if there is no such clause, and if nothing has been
dropped. -/
inductive Rounds (bound : Int64) (clauses : List HornClause) :
    Solution → Nat → Option Solution → Prop where
  | settled {solution : Solution}
      (holds : HornClause.firstBroken bound solution clauses = .ok none) :
      Rounds bound clauses solution 1 (some solution)
  | stuck {solution : Solution} {clause : HornClause}
      (broken : HornClause.firstBroken bound solution clauses = .ok (some clause))
      (kept : clause.weakenFor bound clause.consequent.unknowns.toList solution =
        .ok solution) :
      Rounds bound clauses solution 1 none
  | round {solution weaker : Solution} {clause : HornClause} {rounds : Nat}
      {outcome : Option Solution}
      (broken : HornClause.firstBroken bound solution clauses = .ok (some clause))
      (dropped : clause.weakenFor bound clause.consequent.unknowns.toList solution =
        .ok weaker)
      (changed : weaker ≠ solution) (rest : Rounds bound clauses weaker rounds outcome) :
      Rounds bound clauses solution (rounds + 1) outcome

variable {solution weaker : Solution} {clause : HornClause}

theorem eq_or_weight_lt_of_weakenFor {unknowns : List String}
    (weakened : clause.weakenFor bound unknowns solution = .ok weaker) :
    weaker = solution ∨ weaker.weight < solution.weight := by
  induction unknowns generalizing solution with
  | nil =>
      cases weakened
      exact .inl rfl
  | cons unknown rest induction =>
      rcases Except.exists_of_bind_ok weakened with ⟨implied, selected, weakened⟩
      rcases HornClause.of_impliedQualifiers_eq_ok selected with ⟨passes, _, rfl⟩
      split at weakened
      case isTrue => exact induction weakened
      case isFalse smaller =>
        have contained := contains_of_size_filter_ne smaller
        rcases Option.isSome_iff_exists.mp contained with ⟨valuation, found⟩
        have less : ((solution.chosen unknown).filter passes).size < valuation.size := by
          rw [← chosen_eq found]
          exact Nat.lt_of_le_of_ne (List.length_filter_le _ _) smaller
        have lighter := weight_insert_lt found less
        rcases induction weakened with rfl | further
        · exact .inr lighter
        · exact .inr (further.trans lighter)

theorem Rounds.le_weight {rounds : Nat} {outcome : Option Solution}
    (run : Rounds bound clauses solution rounds outcome) : rounds ≤ solution.weight + 1 := by
  induction run with
  | settled | stuck => exact Nat.le_add_left 1 _
  | round _ dropped changed _ induction =>
      have lighter := (eq_or_weight_lt_of_weakenFor dropped).resolve_left changed
      omega

theorem exists_rounds {outcome : Option Solution}
    (weakened : solution.weaken bound clauses = .ok outcome) :
    ∃ rounds, Rounds bound clauses solution rounds outcome := by
  induction solution using weaken.induct with
  | case1 solution induction =>
      rw [weaken] at weakened
      rcases Except.exists_of_bind_ok weakened with ⟨first, checked, weakened⟩
      cases first with
      | none =>
          cases weakened
          exact ⟨1, .settled checked⟩
      | some clause =>
          rcases Except.exists_of_bind_ok weakened with ⟨weaker, dropped, weakened⟩
          split at weakened
          case isTrue lighter =>
            rcases induction weaker lighter weakened with ⟨rounds, rest⟩
            refine ⟨rounds + 1, .round checked dropped (fun same => ?_) rest⟩
            exact Nat.lt_irrefl _ (same ▸ lighter)
          case isFalse notLighter =>
            cases weakened
            rcases eq_or_weight_lt_of_weakenFor dropped with rfl | lighter
            · exact ⟨1, .stuck checked dropped⟩
            · exact absurd lighter notLighter

end Solution

/-! ## Survivors -/

/-- What refining leaves of a candidate: all clauses hold under its solution, which values
the unknowns that have been valued before or have a space, and chooses only qualifiers that
have been chosen before or that the space allows. -/
structure Candidate.Confirms (bound : Int64) (clauses : List HornClause)
    (qualifiers : QualifierMap) (candidate survivor : Candidate) : Prop where
  checked : ∀ clause, clause ∈ survivor.validClauses ↔
    clause ∈ candidate.validClauses ∨ clause ∈ clauses
  valid : ∀ clause ∈ survivor.validClauses, clause.holds bound survivor.solution = .ok true
  valued : ∀ unknown, survivor.solution.contains unknown = true ↔
    candidate.solution.contains unknown = true ∨ qualifiers.contains unknown = true
  kept : ∀ unknown valuation, candidate.solution.find? unknown = some valuation →
    ∀ qualifier ∈ survivor.solution.chosen unknown, qualifier ∈ valuation
  allowed : ∀ unknown space, candidate.solution.find? unknown = none →
    qualifiers.find? unknown = some space →
      ∀ qualifier ∈ survivor.solution.chosen unknown,
        qualifier ∈ space.qualifiers.take space.maxCount

namespace Candidate

theorem confirms_of_refine {candidate survivor : Candidate}
    (refined : candidate.refine bound clauses qualifiers = .ok (some survivor)) :
    candidate.Confirms bound clauses qualifiers survivor := by
  have survives := survives_of_refine refined
  rcases Except.exists_of_bind_ok refined with ⟨result, weakened, equal⟩
  cases result with
  | none => cases equal
  | some solution =>
      cases equal
      have below := Solution.below_of_weakens (Solution.weakens_of_weaken weakened)
      have chosen {unknown : String} {valuation : Valuation}
          (found : (candidate.solution.withStrongest qualifiers).find? unknown = some valuation) :
          ∀ qualifier ∈ solution.chosen unknown, qualifier ∈ valuation := by
        rw [← Solution.chosen_eq found]
        exact below.fewer unknown
      refine ⟨fun clause => ?_, survives.holds, fun unknown => ?_, ?_, ?_⟩
      · rw [survives.checked, SortedSet.mem_insertMany]
      · change solution.contains unknown = true ↔ _
        rw [below.contains]
        simp only [SortedMap.contains, Solution.find?_withStrongest, Option.isSome_or,
          Option.isSome_map, Bool.or_eq_true]
      · intro unknown valuation found
        apply chosen
        rw [Solution.find?_withStrongest, found, Option.some_or]
      · intro unknown space missing found qualifier member
        rw [← SortedSet.mem_ofList]
        apply chosen _ qualifier member
        rw [Solution.find?_withStrongest, missing, found, Option.none_or]
        rfl

theorem exists_sources_of_refineAll {candidates survivors : List Candidate}
    (refined : refineAll bound clauses qualifiers candidates = .ok survivors) :
    ∃ sources, sources.Sublist candidates ∧
      List.Forall₂ (Confirms bound clauses qualifiers) sources survivors := by
  induction candidates generalizing survivors with
  | nil =>
      cases refined
      exact ⟨[], .slnil, .nil⟩
  | cons candidate rest induction =>
      rcases Except.exists_of_bind_ok refined with ⟨first, refines, refined⟩
      cases first with
      | none =>
          rcases induction refined with ⟨sources, inside, confirm⟩
          exact ⟨sources, inside.cons candidate, confirm⟩
      | some survivor =>
          rcases Except.exists_of_bind_ok refined with ⟨others, more, equal⟩
          cases equal
          rcases induction more with ⟨sources, inside, confirm⟩
          exact ⟨candidate :: sources, inside.cons_cons candidate,
            .cons (confirms_of_refine refines) confirm⟩

theorem exists_rounds_of_refineAll {candidates survivors : List Candidate}
    (refined : refineAll bound clauses qualifiers candidates = .ok survivors) :
    ∀ candidate ∈ candidates,
      let solution := candidate.solution.withStrongest qualifiers
      let all := candidate.validClauses.toList ++ clauses
      ∃ outcome, solution.weaken bound all = .ok outcome ∧
        ∃ rounds, Solution.Rounds bound all solution rounds outcome := by
  induction candidates generalizing survivors with
  | nil => exact List.forall_mem_nil _
  | cons candidate rest induction =>
      rcases Except.exists_of_bind_ok refined with ⟨first, refines, refined⟩
      rcases Except.exists_of_bind_ok refines with ⟨outcome, weakened, _⟩
      have here := Solution.exists_rounds weakened
      refine List.forall_mem_cons.mpr ⟨⟨outcome, weakened, here⟩, ?_⟩
      cases first with
      | none => exact induction refined
      | some survivor =>
          rcases Except.exists_of_bind_ok refined with ⟨others, more, _⟩
          exact induction more

end Candidate

namespace Solver

/-- Unless a negation stops it, refining weakens every candidate in as many rounds as it has
qualifiers and one more at most, and leaves some of the candidates, in their order, with all
clauses valid and nothing chosen from outside the spaces. -/
theorem refining_ends_within_spaces {program : Program} {candidates : List Candidate}
    {tally : BoundedTally}
    (proper : (((bounded bound).refine clauses qualifiers program candidates).run tally).1 ≠
      .error (.trapped .negationOverflow)) :
    (∀ candidate ∈ candidates,
      let solution := candidate.solution.withStrongest qualifiers
      let all := candidate.validClauses.toList ++ clauses
      ∃ outcome, solution.weaken bound all = .ok outcome ∧
        ∃ rounds, Solution.Rounds bound all solution rounds outcome ∧
          rounds ≤ solution.weight + 1) ∧
      ∃ survivors after,
        ((bounded bound).refine clauses qualifiers program candidates).run tally =
          (.ok survivors, after) ∧
        ∃ sources, sources.Sublist candidates ∧
          List.Forall₂ (Candidate.Confirms bound clauses qualifiers) sources survivors := by
  cases refined : Candidate.refineAll bound clauses qualifiers candidates with
  | error trap =>
      rw [answer_bounded, refined] at proper
      exact absurd rfl proper
  | ok survivors =>
      constructor
      · intro candidate member
        rcases Candidate.exists_rounds_of_refineAll refined candidate member with
          ⟨outcome, weakened, rounds, run⟩
        exact ⟨outcome, weakened, rounds, run, run.le_weight⟩
      · exact ⟨survivors, _, run_bounded refined program tally,
          Candidate.exists_sources_of_refineAll refined⟩

section Counter

open Solution

def counterCandidate : Candidate where
  solution := counterSolution
  validClauses := .ofList (counterClauses.take 1)
  label := "0"

def counterStep : List HornClause :=
  counterClauses.drop 1 ++ [⟨.unknown [] "p", .unknown [] "q"⟩]

def counterSpaces : QualifierMap := .ofList [
  ("p", .ofList []),
  ("q", ⟨[.atLeast counter (.int 0), .lessThan counter (.int 2)], 1⟩)]

theorem counter_confirmed_in_rounds :
    let solution := counterCandidate.solution.withStrongest counterSpaces
    let survivor : Candidate := {
      solution := .ofList [("p", .ofList [.atLeast counter (.int 0)]),
        ("q", .ofList [.atLeast counter (.int 0)])]
      validClauses := .ofList (counterClauses ++ counterStep)
      label := "0" }
    (((bounded 3).refine counterStep counterSpaces default [counterCandidate]).run {}).1 ≠
        .error (.trapped .negationOverflow) ∧
      (∃ rounds outcome, Rounds 3 (counterCandidate.validClauses.toList ++ counterStep)
        solution rounds outcome ∧ rounds ≤ 4) ∧
      counterCandidate.Confirms 3 counterStep counterSpaces survivor := by
  intro solution survivor
  have ran : (((bounded 3).refine counterStep counterSpaces default
      [counterCandidate]).run {}).1.toOption = some [survivor] := by
    decide +kernel
  have proper : (((bounded 3).refine counterStep counterSpaces default
      [counterCandidate]).run {}).1 ≠ .error (.trapped .negationOverflow) :=
    Except.ne_error_of_toOption ran _
  have weight : solution.weight = 3 := by decide +kernel
  rcases refining_ends_within_spaces proper with
    ⟨ends, survivors, after, answer, sources, inside, confirm⟩
  rcases ends counterCandidate List.mem_cons_self with ⟨outcome, _, rounds, run, most⟩
  have few : rounds ≤ solution.weight + 1 := most
  rw [weight] at few
  rw [answer] at ran
  cases ran
  cases confirm with
  | cons confirms rest =>
      cases rest
      cases List.mem_singleton.mp (inside.subset List.mem_cons_self)
      exact ⟨proper, ⟨rounds, outcome, run, few⟩, confirms⟩

end Counter

end Solver

end Inhabit
