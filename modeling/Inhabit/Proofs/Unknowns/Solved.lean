import Inhabit.Proofs.Unknowns.Recording

/-! Programs that a synthesis returns have no unknowns left. -/

namespace Inhabit

/-! ## The solution of a state -/

namespace Solution

variable {solution : Solution} {unknown : String}

theorem known_insertIfNew_empty (known : solution.Known) (name : String) :
    Solution.Known (solution.insertIfNew name ∅) := by
  intro other valuation found
  unfold SortedMap.insertIfNew at found
  split at found
  · exact known other valuation found
  · rw [SortedMap.find?_insert] at found
    split at found
    · cases found
      exact fun f member => absurd member (SortedSet.not_mem_empty f)
    · exact known other valuation found

theorem contains_insertIfNew_self (name : String) (valuation : Valuation) :
    (solution.insertIfNew name valuation).contains name = true := by
  unfold SortedMap.insertIfNew
  split
  · assumption
  · rw [SortedMap.contains, SortedMap.find?_insert_self]
    rfl

theorem contains_insertIfNew (contained : solution.contains unknown = true) (name : String)
    (valuation : Valuation) :
    (solution.insertIfNew name valuation).contains unknown = true := by
  by_cases same : unknown = name
  · rw [same]
    exact contains_insertIfNew_self name valuation
  · unfold SortedMap.insertIfNew
    split
    · exact contained
    · rwa [SortedMap.contains, SortedMap.find?_insert_of_ne _ same]

theorem known_foldl_insertIfNew (known : solution.Known) (unknowns : List String) :
    Solution.Known
      (unknowns.foldl (fun solution unknown => solution.insertIfNew unknown ∅) solution) := by
  induction unknowns generalizing solution with
  | nil => exact known
  | cons name rest induction => exact induction (known_insertIfNew_empty known name)

theorem contains_foldl_insertIfNew {unknowns : List String}
    (listed : unknown ∈ unknowns ∨ solution.contains unknown = true) :
    SortedMap.contains
      (unknowns.foldl (fun solution unknown => solution.insertIfNew unknown ∅) solution)
      unknown = true := by
  induction unknowns generalizing solution with
  | nil => exact listed.resolve_left (List.not_mem_nil)
  | cons name rest induction =>
      apply induction
      rcases listed with inList | contained
      · rcases List.mem_cons.mp inList with rfl | inRest
        · exact .inr (contains_insertIfNew_self _ _)
        · exact .inl inRest
      · exact .inr (contains_insertIfNew contained _ _)

end Solution

namespace SearchState

variable {state : SearchState}

theorem known_solution (known : ∀ candidate ∈ state.candidates, candidate.solution.Known) :
    state.solution.Known := by
  apply Solution.known_foldl_insertIfNew
  cases first : state.candidates with
  | nil => exact fun _ _ => nofun
  | cons candidate rest =>
      exact known candidate (first ▸ List.mem_cons_self)

theorem contains_solution {unknown : String}
    (recorded : state.qualifiers.contains unknown = true) :
    state.solution.contains unknown = true := by
  apply Solution.contains_foldl_insertIfNew
  left
  rcases Option.isSome_iff_exists.mp recorded with ⟨space, found⟩
  exact List.mem_map.mpr ⟨_, SortedMap.mem_entries_of_find? found, rfl⟩

theorem Ready.known_finalize (ready : state.Ready)
    (known : ∀ candidate ∈ state.candidates, candidate.solution.Known) {found : Program}
    (tidy : found.All (RefinedType.Tidy (state.Covers [])) (Formula.Covered (state.Covers []))) :
    (state.finalize found).All RefinedType.Known Formula.Known := by
  have total : ∀ unknown, state.Covers [] unknown → state.solution.contains unknown = true :=
    fun unknown covered => contains_solution (ready.recorded unknown covered)
  apply Program.all_mapAnnotations.mpr
  apply tidy.mono
  · intro type tidy
    exact (ready.accounted.assignment.apply tidy).known_applySolution (known_solution known)
      total
  · intro guard covered
    exact (covered.instantiateSorts _).known_applySolution (known_solution known) total

end SearchState

/-! ## Solvers without unknowns -/

/-- Candidates have no unknowns as long as the spaces are of a kind that the sources
propose and that pruning preserves. -/
structure Setting.Knows (setting : Setting σ) (kind : QualifierSpace → Prop) : Prop where
  proposed : ∀ space, Search.Proposed setting space → kind space
  pruned : ∀ space memory pruned after, kind space →
    (setting.solver.prune space).run memory = (.ok pruned, after) → kind pruned
  initial : setting.solver.initial.solution.Known
  refined : ∀ clauses qualifiers program candidates memory survivors after,
    (∀ unknown space, SortedMap.find? qualifiers unknown = some space → kind space) →
    (∀ candidate ∈ candidates, candidate.solution.Known) →
    (setting.solver.refine clauses qualifiers program candidates).run memory =
        (.ok survivors, after) →
      ∀ candidate ∈ survivors, candidate.solution.Known

namespace Search

variable {σ : Type} {setting : Setting σ} {kind : QualifierSpace → Prop}

def knowing (kind : QualifierSpace → Prop) : Promise σ where
  calm memory := (∀ unknown space,
      memory.state.qualifiers.find? unknown = some space → kind space) ∧
    ∀ candidate ∈ memory.state.candidates, candidate.solution.Known
  stopped _ _ := True
  renamed _ _ := id
  resumed _ _ before _ := before

theorem tracks_knowing (knows : setting.Knows kind) : (knowing kind).Tracks setting where
  moved memory state qualifiers candidates calm := by
    refine ⟨?_, fun candidate member => calm.2 candidate (candidates member)⟩
    rw [qualifiers]
    exact calm.1
  unfinished _ _ := trivial
  missing _ _ _ _ := trivial
  nonSimple _ _ _ := trivial
  recorded memory unknown space proposed new := by
    apply yields_addQualifiers
    apply Yields.ask
    · intro answer solver asked calm
      have kindAnswer := knows.pruned _ _ _ _ (knows.proposed space proposed) asked
      refine ⟨calm, rfl, fun other recorded found => ?_, calm.2⟩
      rw [SortedMap.find?_insert] at found
      split at found
      · cases found
        exact kindAnswer
      · exact calm.1 other recorded found
    · exact fun interrupt solver _ calm => ⟨fun _ => trivial, fun _ => calm⟩
  refined memory program _ calm := by
    apply Yields.ask
    · intro answer solver asked emptied
      exact ⟨emptied, rfl, calm.1, knows.refined _ _ _ _ _ _ _ calm.1 calm.2 asked⟩
    · exact fun interrupt solver _ emptied => ⟨fun _ => trivial, fun _ => emptied⟩

end Search

/-- A program that a synthesis returns mentions no unknowns. -/
theorem synthesized_programs_are_known {setting : Setting σ} {kind : QualifierSpace → Prop}
    {goal : Goal} {solver after : σ} {program : Program} (known : goal.Known)
    (knows : setting.Knows kind)
    (found : synthesize setting goal solver = (.ok program, after)) :
    program.All RefinedType.Known Formula.Known := by
  have tracks := Search.tracks_knowing knows
  have calm : (Search.knowing kind).calm (setting.start solver) :=
    ⟨by rintro _ _ ⟨⟩, List.forall_mem_singleton.mpr knows.initial⟩
  have ended := known.yields_search tracks solver calm
  rcases synthesize_cases found with
    ⟨memory, _, ⟨_, equal, searched⟩ | ⟨_, equal, _⟩ | equal⟩
  · cases equal
    rw [searched] at ended
    rcases ended with ⟨calmAfter, body, rfl, ready, tidy⟩
    exact ready.known_finalize calmAfter.2 tidy
  · cases equal
  · cases equal

def QualifierSpace.Known (space : QualifierSpace) : Prop :=
  ∀ qualifier ∈ space.qualifiers, Formula.Known qualifier

theorem isOneSetting_knows : isOneSetting.Knows QualifierSpace.Known where
  proposed := by
    rintro space ⟨terms, _, rfl | rfl⟩ <;> exact List.forall_mem_nil _
  pruned := by
    intro space memory pruned after known ran
    cases ran
    exact known
  initial := by rintro _ _ ⟨⟩
  refined := by
    intro clauses qualifiers program candidates memory survivors after _ known ran
    cases ran
    intro candidate member
    rcases List.mem_map.mp member with ⟨candidate, inside, rfl⟩
    exact known candidate inside

theorem isOne_program_known : ∃ program after,
    synthesize isOneSetting isOneGoal {} = (.ok program, after) ∧
      program.render = "isOne one" ∧ program.All RefinedType.Known Formula.Known := by
  have rendered : (synthesize isOneSetting isOneGoal {}).1.toOption.map Program.render =
      some "isOne one" := by
    decide +kernel
  rcases ran : synthesize isOneSetting isOneGoal {} with ⟨result, after⟩
  rw [ran] at rendered
  cases result with
  | error _ => cases rendered
  | ok program =>
      exact ⟨program, after, rfl, Option.some_inj.mp rendered,
        synthesized_programs_are_known isOneGoal_known isOneSetting_knows ran⟩

end Inhabit
