import Inhabit.Proofs.Search.Invariants
import Inhabit.Search.Synthesis

/-! What the parts of a search come to, whichever way it ends.

A search keeps a promise about its memory as long as it goes on, and another one for
where it is stopped. A failure that a choice point passes over only ends a branch: the
state of the branch is dropped, and what the solver remembers is kept. -/

namespace Inhabit

/-- The interrupt passes every choice point. -/
def Interrupt.stops : Interrupt → Bool
  | .failed failure => failure.isFatal
  | .trapped _ | .unfinished => true

namespace Search

/-- What is to hold of the memory of a search. -/
structure Promise (σ : Type) where
  /-- As long as the search goes on. -/
  calm : Memory σ → Prop
  /-- Where it has been stopped for good. -/
  stopped : Interrupt → Memory σ → Prop
  renamed : ∀ memory names, calm memory → calm { memory with names }
  resumed : ∀ before after, calm before → calm after →
    calm { after with state := before.state }

variable {σ : Type} {α β : Type} {setting : Setting σ} {promise : Promise σ}
  {memory : Memory σ}

def Promise.Meets (promise : Promise σ) (result : α → Memory σ → Prop) :
    Except Interrupt α × Memory σ → Prop
  | (.ok value, after) => promise.calm after ∧ result value after
  | (.error interrupt, after) =>
      (interrupt.stops = true → promise.stopped interrupt after) ∧
        (interrupt.stops = false → promise.calm after)

/-- From this memory, the search comes to such a result or fails, and stands by the
promise. -/
def Yields (setting : Setting σ) (promise : Promise σ) (run : Search σ α)
    (memory : Memory σ) (result : α → Memory σ → Prop) : Prop :=
  promise.calm memory → promise.Meets result (run setting memory)

namespace Yields

variable {run : Search σ α} {result : α → Memory σ → Prop}

theorem mono {weaker : α → Memory σ → Prop}
    (yields : Yields setting promise run memory result)
    (implied : ∀ value after, result value after → weaker value after) :
    Yields setting promise run memory weaker := by
  intro calm
  have ended := yields calm
  revert ended
  rcases run setting memory with ⟨outcome, after⟩
  cases outcome with
  | ok value => exact And.imp_right (implied value after)
  | error interrupt => exact id

theorem pure {value : α} (holds : result value memory) :
    Yields setting promise (Pure.pure value) memory result :=
  fun calm => ⟨calm, holds⟩

theorem bind {rest : α → Search σ β} {final : β → Memory σ → Prop}
    (first : Yields setting promise run memory result)
    (second : ∀ value after, result value after →
      Yields setting promise (rest value) after final) :
    Yields setting promise (run >>= rest) memory final := by
  intro calm
  have ended := first calm
  rw [run_bind]
  revert ended
  rcases run setting memory with ⟨outcome, after⟩
  intro ended
  cases outcome with
  | ok value => exact second value after ended.2 ended.1
  | error interrupt => exact ended

theorem bind_bind {step : Search σ Unit} {next : Unit → Search σ Unit}
    {both : Unit → Memory σ → Prop} {rest : Unit → Search σ β}
    {final : β → Memory σ → Prop}
    (first : Yields setting promise (step >>= next) memory both)
    (second : ∀ value after, both value after →
      Yields setting promise (rest value) after final) :
    Yields setting promise (step >>= fun value => next value >>= rest) memory final := by
  rw [← bind_assoc]
  exact first.bind second

theorem get_bind {rest : Memory σ → Search σ α}
    (second : Yields setting promise (rest memory) memory result) :
    Yields setting promise (get >>= rest) memory result :=
  second

theorem read_bind {rest : Setting σ → Search σ α}
    (second : Yields setting promise (rest setting) memory result) :
    Yields setting promise (read >>= rest) memory result :=
  second

theorem applyAssignment_bind {t : RefinedType} {rest : RefinedType → Search σ α}
    (second : Yields setting promise (rest (memory.state.assignment.apply t)) memory
      result) :
    Yields setting promise (applyAssignment t >>= rest) memory result :=
  second

theorem naming_bind {draw : Naming β} {rest : β → Search σ α}
    (second : ∀ names, Yields setting promise (rest (draw.run memory.names).1)
      { memory with names } result) :
    Yields setting promise (naming draw >>= rest) memory result := 
  fun calm => second _ (promise.renamed memory _ calm)

theorem mapM {elements : List β} {body : β → Search σ α} {property : α → Prop}
    (each : ∀ element ∈ elements, ∀ other : Memory σ, other.state = memory.state →
      Yields setting promise (body element) other fun value after =>
        after.state = memory.state ∧ property value) :
    Yields setting promise (elements.mapM body) memory fun values after =>
      after.state = memory.state ∧ values.length = elements.length ∧
        ∀ value ∈ values, property value := by
  suffices any : ∀ other : Memory σ, other.state = memory.state →
      Yields setting promise (elements.mapM body) other fun values after =>
        after.state = memory.state ∧ values.length = elements.length ∧
          ∀ value ∈ values, property value from any memory rfl
  induction elements with
  | nil =>
      intro other same
      exact pure ⟨same, rfl, List.forall_mem_nil _⟩
  | cons element rest induction =>
      intro other same
      rw [List.mapM_cons]
      apply (each element List.mem_cons_self other same).bind
      intro value middle first
      apply (induction (fun element member =>
        each element (List.mem_cons_of_mem _ member)) middle first.1).bind
      intro values after second
      exact pure ⟨second.1, congrArg Nat.succ second.2.1,
        List.forall_mem_cons.mpr ⟨first.2, second.2.2⟩⟩

theorem forM {body : β → Search σ Unit} {invariant : List β → Memory σ → Prop}
    (step : ∀ element rest other, invariant (element :: rest) other →
      Yields setting promise (body element) other fun _ after => invariant rest after)
    {elements : List β} (start : invariant elements memory) :
    Yields setting promise (elements.forM body) memory fun _ after => invariant [] after := by
  induction elements generalizing memory with
  | nil => exact pure start
  | cons element rest induction =>
      change Yields setting promise (body element >>= fun _ => rest.forM body) memory _
      exact (step element rest memory start).bind fun _ _ => induction

theorem forIn {body : β → PUnit → Search σ (ForInStep PUnit)}
    {invariant : List β → Memory σ → Prop}
    (step : ∀ element rest other, invariant (element :: rest) other →
      Yields setting promise (body element ⟨⟩) other fun next after =>
        next = .yield ⟨⟩ ∧ invariant rest after)
    {elements : List β} (start : invariant elements memory) :
    Yields setting promise (forIn elements ⟨⟩ body) memory
      fun _ after => invariant [] after := by
  induction elements generalizing memory with
  | nil => exact pure start
  | cons element rest induction =>
      rw [List.forIn_cons]
      apply (step element rest memory start).bind
      rintro _ after ⟨rfl, holds⟩
      exact induction holds

theorem freshAll (stem : String) (count : Nat) :
    Yields setting promise ((List.replicate count stem).mapM fresh) memory
      fun names after => after.state = memory.state ∧ names.length = count ∧
        ∀ name ∈ names, ∃ number : Nat, name = stem ++ toString number := by
  have drawn : Yields setting promise ((List.replicate count stem).mapM fresh) memory
      fun names after => after.state = memory.state ∧
        names.length = (List.replicate count stem).length ∧
        ∀ name ∈ names, ∃ number : Nat, name = stem ++ toString number := by
    apply mapM
    intro other isStem middle same
    rw [List.eq_of_mem_replicate isStem]
    exact fun calm => ⟨promise.renamed middle _ calm, same, middle.names.issued, rfl⟩
  rwa [List.length_replicate] at drawn

theorem fail {failure : Failure} (recoverable : failure.isFatal = false) :
    Yields setting promise (Search.fail failure : Search σ α) memory result :=
  fun calm => ⟨fun fatal => absurd (recoverable.symm.trans fatal) nofun, fun _ => calm⟩

theorem fault {failure : Failure}
    (stops : promise.calm memory → promise.stopped (.failed failure) memory) :
    Yields setting promise (Search.fail failure : Search σ α) memory result :=
  fun calm => ⟨fun _ => stops calm, fun _ => calm⟩

theorem ask {question : Solver σ → Solving σ α}
    (answered : ∀ answer solver,
      (question setting.solver).run memory.solver = (.ok answer, solver) →
        promise.calm memory →
          promise.calm { memory with solver } ∧ result answer { memory with solver })
    (interrupted : ∀ interrupt solver,
      (question setting.solver).run memory.solver = (.error interrupt, solver) →
        promise.calm memory →
          (interrupt.stops = true → promise.stopped interrupt { memory with solver }) ∧
            (interrupt.stops = false → promise.calm { memory with solver })) :
    Yields setting promise (Search.ask question) memory result := by
  intro calm
  unfold Search.ask
  cases asked : (question setting.solver).run memory.solver with
  | mk outcome solver =>
      cases outcome with
      | ok answer => exact answered answer solver asked calm
      | error interrupt => exact interrupted interrupt solver asked calm

theorem choose {options : List β} {none : Failure} {attempt : β → Search σ α}
    (recoverable : none.isFatal = false)
    (each : ∀ option ∈ options, ∀ other : Memory σ, other.state = memory.state →
      Yields setting promise (attempt option) other result) :
    Yields setting promise (Search.choose options none attempt) memory result := by
  induction options generalizing none memory with
  | nil => exact fail recoverable
  | cons option rest induction =>
      intro calm
      have ended := each option List.mem_cons_self memory rfl calm
      unfold Search.choose
      revert ended
      rcases attempt option setting memory with ⟨outcome, after⟩
      intro ended
      cases outcome with
      | ok _ => exact ended
      | error interrupt =>
          cases interrupt with
          | trapped _ => exact ended
          | unfinished => exact ended
          | failed failure =>
              dsimp only
              cases fatal : failure.isFatal with
              | true => exact ended
              | false =>
                  exact induction fatal
                    (fun other member => each other (List.mem_cons_of_mem _ member))
                    (promise.resumed memory after calm (ended.2 fatal))

end Yields

end Search

/-! ## Synthesis -/

/-- A program is the result of the search; an error is the interrupt that stopped the
search, or stands for a failure of all branches. -/
theorem synthesize_cases {setting : Setting σ} {goal : Goal} {solver after : σ}
    {outcome : Except Interrupt Program}
    (ran : synthesize setting goal solver = (outcome, after)) :
    ∃ memory, memory.solver = after ∧
      ((∃ program, outcome = .ok program ∧
          goal.search setting (setting.start solver) = (.ok program, memory)) ∨
        (∃ interrupt, outcome = .error interrupt ∧ interrupt.stops = true ∧
          goal.search setting (setting.start solver) = (.error interrupt, memory)) ∨
        outcome = .error (.failed ⟨.noSolution goal.name, none⟩)) := by
  unfold synthesize at ran
  rcases searched : goal.search setting (setting.start solver) with ⟨result, memory⟩
  change (goal.search.run setting).run.run (setting.start solver) = _ at searched
  rw [searched] at ran
  refine ⟨memory, ?_⟩
  match result with
  | .ok program =>
      cases ran
      exact ⟨rfl, .inl ⟨program, rfl, rfl⟩⟩
  | .error (.trapped trap) =>
      cases ran
      exact ⟨rfl, .inr (.inl ⟨_, rfl, rfl, rfl⟩)⟩
  | .error .unfinished =>
      cases ran
      exact ⟨rfl, .inr (.inl ⟨_, rfl, rfl, rfl⟩)⟩
  | .error (.failed failure) =>
      dsimp only at ran
      cases fatal : failure.isFatal with
      | true =>
          rw [if_pos fatal] at ran
          cases ran
          exact ⟨rfl, .inr (.inl ⟨_, rfl, fatal, rfl⟩)⟩
      | false =>
          rw [if_neg (by simp [fatal])] at ran
          cases ran
          exact ⟨rfl, .inr (.inr rfl)⟩

end Inhabit
