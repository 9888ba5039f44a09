import Inhabit.Program.Printer
import Inhabit.Proofs.Guards.Paths
import Inhabit.Proofs.Substitution.Composition

/-! What the guards of a synthesized program speak of.

A guard is instantiated by the qualifiers that the first candidate has chosen for it,
and these are of the scope that it was drawn in. -/

namespace Inhabit

/-! ## Instantiation -/

theorem Solution.chosen_of_foldl_insertIfNew {solution : Solution} {unknown : String}
    {unknowns : List String} {qualifier : Formula}
    (member : qualifier ∈ Solution.chosen (unknowns.foldl
      (fun solution unknown => solution.insertIfNew unknown ∅) solution) unknown) :
    qualifier ∈ solution.chosen unknown := by
  induction unknowns generalizing solution with
  | nil => exact member
  | cons name rest induction =>
      rcases chosen_insertIfNew (induction member) with old | ⟨_, none⟩
      · exact old
      · exact absurd none (SortedSet.not_mem_empty _)

namespace SearchState

variable {state : SearchState}

theorem chosen_solution {unknown : String} {qualifier : Formula}
    (member : qualifier ∈ state.solution.chosen unknown) :
    ∃ candidate ∈ state.candidates, qualifier ∈ candidate.solution.chosen unknown := by
  have first := Solution.chosen_of_foldl_insertIfNew member
  cases candidates : state.candidates with
  | nil =>
      rw [candidates] at first
      exact absurd first (SortedSet.not_mem_empty _)
  | cons candidate rest =>
      rw [candidates] at first
      exact ⟨candidate, List.mem_cons_self, first⟩

theorem Confines.instantiated {names : String → Prop} {guard : String}
    (confined : state.Confines names guard) :
    ((state.assignment.applyFormula (.unknown [] guard)).applySolution
      state.solution).SpeaksOf names := by
  change (Formula.applySolution state.solution (.unknown [] guard)).SpeaksOf names
  rw [Formula.applySolution]
  cases found : state.solution.find? guard with
  | none => exact List.forall_mem_nil _
  | some valuation =>
      dsimp only
      rw [Formula.substitute_nil]
      apply Formula.speaksOf_conjunction
      intro qualifier member
      have chosen : state.solution.chosen guard = valuation := by
        rw [Solution.chosen, found]
        rfl
      rw [SortedSet.mem_toList, ← chosen] at member
      rcases chosen_solution member with ⟨candidate, inside, chosen⟩
      exact confined.chosen candidate inside qualifier chosen

end SearchState

/-! ## Synthesis -/

/-- No unknown in the types that are given has the name of a guard. -/
structure Goal.GuardFree (goal : Goal) : Prop where
  environment : goal.environment.GuardFree
  schema : goal.schema.body.GuardFree

open Search in
/-- The guards of a program that is found speak of scalars that the goal gives, of names
that the program binds on the way to them and of ghosts of the matches that they are in.
When the program is found, each of its guards is confined to the scope that it was drawn
in, and the last solve step keeps it so. -/
theorem guards_speak_of_bound_names {setting : Setting σ} {goal : Goal} {solver after : σ}
    {program : Program} (chooses : setting.solver.ChoosesProposed)
    (isLocal : setting.sources.Local) (free : goal.GuardFree)
    (ran : synthesize setting goal solver = (.ok program, after)) :
    program.GuardsWithin (Program.ghostCount goal.environment.isConstant)
      (fun bound guard => guard.SpeaksOf bound) goal.environment.Names := by
  rcases synthesize_cases ran with ⟨memory, _, ⟨_, equal, found⟩ | ⟨_, equal, _⟩ | equal⟩
  case inr.inl | inr.inr => cases equal
  cases equal
  rcases goal.traced_search setting (setting.start solver) with
    ⟨branch, events, ended, trace, ends⟩
  have same := trace.run_eq.symm.trans found
  rcases ends program memory same with
    ⟨_, _, _, fragment, before, _, _, path, solved, rfl, _⟩
  have scope : goal.environment.Within goal.environment.isConstant goal.environment.Names :=
    ⟨free.environment, rfl, fun _ => id⟩
  rcases path.confines chooses isLocal scope free.schema
    (Memory.orderly_start chooses solver) with ⟨_, guards⟩
  apply Program.GuardsWithin.mapAnnotations
  · exact Program.ghostCount_mapAnnotations _ _ _
  · apply guards.mono
    rintro bound _ ⟨number, _, rfl, confined⟩
    exact (confined_solve chooses isLocal solved confined).instantiated

section Ghosts

def truths (scalars : List Formula) : List Formula :=
  scalars.filter fun term => term.sort == .bool

def truthSources : QualifierSources where
  guards scalars := .ofList (truths scalars)
  refinements scalars := .ofList
    ((truths scalars).flatMap fun first => (truths scalars).map (.binary .or first))

private theorem truthSources_local : truthSources.Local where
  guards scalars term member name occurs := ⟨term, (List.mem_filter.mp member).1, occurs⟩
  refinements scalars qualifier member name occurs := by
    rcases List.mem_flatMap.mp member with ⟨first, firstTruth, member⟩
    rcases List.mem_map.mp member with ⟨second, secondTruth, rfl⟩
    rcases List.mem_append.mp occurs with occurs | occurs
    · exact ⟨first, (List.mem_filter.mp firstTruth).1, occurs⟩
    · exact ⟨second, (List.mem_filter.mp secondTruth).1, occurs⟩

def truthSetting : Setting BoundedTally where
  parameters :=
    { applicationDepth := 0, scrutineeDepth := 1, matchDepth := 1, conditionDepth := 1 }
  solver := .bounded 1
  sources := truthSources
  steps := 40

/-- One of `p` and `q` is true. A box that holds `p` can be opened before it is asked
which of them it is. -/
def choiceGoal : Goal where
  name := "choice"
  environment := (∅ : Environment).addDatatype "Box" ⟨[], ["box"], none⟩
    |>.addConstant "box"
      (.mono (.function "n" (.atom .bool .top) (.atom (.data "Box") .top)))
    |>.addVariable "p" (.atom .bool .top)
    |>.addVariable "q" (.atom .bool .top)
    |>.assume ((Formula.var .bool "p").or (.var .bool "q"))
  schema := .mono (.atom .bool (.value .bool))

private theorem choiceGoal_guardFree : choiceGoal.GuardFree where
  environment := by
    have free {base : BaseType} : RefinedType.GuardFree (.atom base .top) :=
      RefinedType.guardFree_atom.mpr (Formula.Known.guardFree rfl)
    have boxes : RefinedType.GuardFree
        (Schema.mono (.function "n" (.atom .bool .top) (.atom (.data "Box") .top))).body :=
      RefinedType.guardFree_function.mpr ⟨free, free⟩
    have empty : (∅ : Environment).GuardFree := fun _ => List.forall_mem_nil _
    exact ((((empty.addDatatype _ _).addConstant _ boxes).addVariable _ free).addVariable _
      free).assume _
  schema := RefinedType.guardFree_atom.mpr (Formula.Known.guardFree rfl)

def Program.guardNames (program : Program) : List (List String × List String) :=
  (program.guardsUnder []).map fun guarded => (guarded.1, guarded.2.freeVariables.toList)

theorem exists_of_map_toOption {ε α β γ : Type} {ended : Except ε α × γ}
    {tell : α → β} {told : β} (known : ended.1.toOption.map tell = some told) :
    ∃ value after, ended = (.ok value, after) ∧ tell value = told := by
  rcases ended with ⟨_ | value, after⟩
  · cases known
  · exact ⟨value, after, rfl, Option.some_inj.mp known⟩

private theorem run_choiceGoal :
    ((synthesize truthSetting choiceGoal {}).1.toOption.map fun program =>
      (program.render, program.guardNames)) =
        some ("match box p with box _z5 -> if _g3 && p then p else q",
          [(["_z5"], ["_g3", "p"])]) := by
  decide +kernel

theorem choiceGoal_guard_speaks : ∃ program after,
    synthesize truthSetting choiceGoal {} = (.ok program, after) ∧
      program.render = "match box p with box _z5 -> if _g3 && p then p else q" ∧
        program.GuardsWithin (Program.ghostCount choiceGoal.environment.isConstant)
          (fun bound guard => guard.SpeaksOf bound) choiceGoal.environment.Names := by
  rcases exists_of_map_toOption run_choiceGoal with ⟨program, after, ran, told⟩
  exact ⟨program, after, ran, congrArg Prod.fst told,
    guards_speak_of_bound_names (Solver.choosesProposed_bounded 1) truthSources_local
      choiceGoal_guardFree ran⟩

private theorem Program.not_guardsWithin_of_guardNames {ghosts : Program → Nat}
    {bound : String → Prop} {program : Program} {binders names : List String} {name : String}
    (told : program.guardNames = [(binders, names)]) (spoken : name ∈ names)
    (unbound : name ∉ binders) (foreign : ¬ bound name)
    (noGhost : IsGhost name → ∀ scrutinee, ghosts scrutinee = 0) :
    ¬ program.GuardsWithin ghosts (fun bound guard => guard.SpeaksOf bound) bound := by
  intro within
  have brought : ∀ scrutinee, ghosts scrutinee ≠ 0 → ∀ ghost, IsGhost ghost → ghost ≠ name := by
    rintro scrutinee brings _ isGhost rfl
    exact brings (noGhost isGhost scrutinee)
  have known : ∀ other, bound other → other ∈ [] ∨ other ≠ name :=
    fun other isBound => .inr fun same => foreign (same ▸ isBound)
  have listed : (binders, names) ∈ program.guardNames := told ▸ List.mem_singleton_self _
  rcases List.mem_map.mp listed with ⟨_, member, equal⟩
  cases equal
  have speaks := within.forall_guardsUnder known brought
    (fun narrow wide guard widens speaks other occurs => widens other (speaks other occurs))
    _ member
  have occurs := SortedSet.mem_ofList.mp (SortedSet.mem_toList.mp spoken)
  rcases speaks name occurs with inside | other
  · exact unbound inside
  · exact other rfl

private theorem IsGhost.second_letter {name : String} (isGhost : IsGhost name) :
    name.toList[1]? = some 'g' := by
  rcases isGhost with ⟨number, rfl⟩
  simp [Stem.ghost, String.toList_append]

/-- The unknown in the type of `mark` is called like a guard, and the type variable of
`left` like one that is drawn for the list. -/
def markedGoal : Goal where
  name := "marked"
  environment :=
    let known : Formula := .var .bool "known"
    let wanted : Formula := .var .bool "wanted"
    let marks (type : RefinedType) : RefinedType := .scalar (.data "Mark") [type] .top
    let lists (refinement : Formula) : RefinedType :=
      .scalar (.data "List") [.scalar (.data "List") [.atom (.typeVar "a") .top] .top]
        refinement
    (∅ : Environment).addDatatype "Mark" ⟨["a"], ["left", "right"], none⟩
      |>.addConstant "left" (.mono (.function "n" (.atom .bool wanted)
        (marks (.atom (.typeVar "_a7") .top))))
      |>.addConstant "right" (.mono (marks (.atom (.typeVar "b") .top)))
      |>.addConstant "first" (.mono (lists (known.not.or wanted)))
      |>.addConstant "second" (.mono (lists (known.or wanted)))
      |>.addVariable "mark" (marks (.atom .bool (.unknown [] "_c10")))
      |>.addVariable "known" (.atom .bool .top)
  schema := .mono (.scalar (.data "List") [.atom (.typeVar "c") .top] (.var .bool "wanted"))

private theorem run_markedGoal :
    (synthesize truthSetting markedGoal {}).1.toOption.map Program.guardNames =
      some [([], ["_v", "_z6", "known"])] := by
  decide +kernel

def talkativeSetting : Setting BoundedTally :=
  let something : Formula := .var .bool "something"
  { truthSetting with
    parameters := { applicationDepth := 0, matchDepth := 0, conditionDepth := 1 }
    solver := { Solver.bounded 1 with
      prune := fun space => return .ofList (something.or something.not :: space.qualifiers) } }

private theorem run_talkative :
    (synthesize talkativeSetting choiceGoal {}).1.toOption.map Program.guardNames =
      some [([], ["p", "something"])] := by
  decide +kernel

/-- The guard of the choice speaks of the ghost of the box. It speaks of other names if
the solver brings them up, or if the goal has names that the search draws. -/
theorem choiceGoal_guard_escapes :
    truthSources.Local ∧
    (∃ program after, synthesize truthSetting choiceGoal {} = (.ok program, after) ∧
      ¬ program.GuardsWithin (fun _ => 0) (fun bound guard => guard.SpeaksOf bound)
        fun name => (choiceGoal.environment.lookup? name).isSome) ∧
    (∃ program after, synthesize talkativeSetting choiceGoal {} = (.ok program, after) ∧
      ¬ program.GuardsWithin (Program.ghostCount choiceGoal.environment.isConstant)
        (fun bound guard => guard.SpeaksOf bound) choiceGoal.environment.Names) ∧
    ∃ program after, synthesize truthSetting markedGoal {} = (.ok program, after) ∧
      ¬ program.GuardsWithin (Program.ghostCount markedGoal.environment.isConstant)
        (fun bound guard => guard.SpeaksOf bound) markedGoal.environment.Names := by
  refine ⟨truthSources_local, ?_, ?_, ?_⟩
  · rcases exists_of_map_toOption run_choiceGoal with ⟨program, after, ran, told⟩
    exact ⟨program, after, ran, Program.not_guardsWithin_of_guardNames
      (congrArg Prod.snd told) List.mem_cons_self (by decide) (by decide) fun _ _ => rfl⟩
  · rcases exists_of_map_toOption run_talkative with ⟨program, after, ran, told⟩
    have foreign : ¬ choiceGoal.environment.Names "something" :=
      fun named => absurd named.mem_keys (by decide)
    exact ⟨program, after, ran, Program.not_guardsWithin_of_guardNames told
      (by decide) List.not_mem_nil foreign
      fun isGhost => absurd isGhost.second_letter (by decide)⟩
  · rcases exists_of_map_toOption run_markedGoal with ⟨program, after, ran, told⟩
    have foreign : ¬ markedGoal.environment.Names "_v" :=
      fun named => absurd named.mem_keys (by decide)
    exact ⟨program, after, ran, Program.not_guardsWithin_of_guardNames told
      List.mem_cons_self List.not_mem_nil foreign
      fun isGhost => absurd isGhost.second_letter (by decide)⟩

end Ghosts

end Inhabit
