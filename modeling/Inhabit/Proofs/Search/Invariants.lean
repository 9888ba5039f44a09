import Inhabit.Search.Basic

/-! What a search keeps true of its memory, however it ends. -/

namespace Inhabit.Search

variable {σ : Type} {α β : Type} {setting : Setting σ} {kept : Memory σ → Prop}

theorem run_bind (run : Search σ α) (rest : α → Search σ β) (setting : Setting σ)
    (memory : Memory σ) :
    (run >>= rest) setting memory =
      match run setting memory with
      | (.ok result, after) => rest result setting after
      | (.error interrupt, after) => (.error interrupt, after) := by
  change (ExceptT.bindCont (fun result => rest result setting)
    (run setting memory).1) (run setting memory).2 = _
  rcases run setting memory with ⟨result, after⟩
  cases result with
  | ok result => rfl
  | error interrupt => rfl

theorem exists_of_bind_ok {run : Search σ α} {rest : α → Search σ β}
    {memory after : Memory σ} {result : β}
    (ran : (run >>= rest) setting memory = (.ok result, after)) :
    ∃ value middle, run setting memory = (.ok value, middle) ∧
      rest value setting middle = (.ok result, after) := by
  rw [run_bind] at ran
  cases first : run setting memory with
  | mk outcome middle =>
      rw [first] at ran
      cases outcome with
      | ok value => exact ⟨value, middle, rfl, ran⟩
      | error interrupt => cases ran

def Keeps (setting : Setting σ) (kept : Memory σ → Prop) (run : Search σ α) : Prop :=
  ∀ memory, kept memory → kept (run setting memory).2

namespace Keeps

theorem pure (result : α) : Keeps setting kept (Pure.pure result) :=
  fun _ holds => holds

theorem fail (failure : Failure) : Keeps setting kept (Search.fail failure : Search σ α) :=
  fun _ holds => holds

theorem modifyState {change : SearchState → SearchState}
    (changed : ∀ memory, kept memory →
      kept { memory with state := change memory.state }) :
    Keeps setting kept (Search.modifyState change) :=
  changed

theorem bind {run : Search σ α} {rest : α → Search σ β}
    (first : Keeps setting kept run)
    (second : ∀ result, Keeps setting kept (rest result)) :
    Keeps setting kept (run >>= rest) := by
  intro memory holds
  have middle := first memory holds
  rw [run_bind]
  revert middle
  rcases run setting memory with ⟨result, after⟩
  intro middle
  cases result with
  | ok result => exact second result after middle
  | error interrupt => exact middle

theorem get_bind {rest : Memory σ → Search σ β}
    (second : ∀ memory, kept memory → Keeps setting kept (rest memory)) :
    Keeps setting kept (get >>= rest) :=
  fun memory holds => second memory holds memory holds

theorem read_bind {rest : Setting σ → Search σ β}
    (second : Keeps setting kept (rest setting)) :
    Keeps setting kept (read >>= rest) :=
  second

theorem ask_bind {question : Solver σ → Solving σ α} {rest : α → Search σ β}
    (stable : ∀ memory solver, kept memory → kept { memory with solver })
    (second : ∀ memory result after,
      (question setting.solver).run memory = (.ok result, after) →
        Keeps setting kept (rest result)) :
    Keeps setting kept (ask question >>= rest) := by
  intro memory holds
  rw [run_bind]
  have answered := second memory.solver
  unfold ask
  revert answered
  rcases (question setting.solver).run memory.solver with ⟨result, after⟩
  intro answered
  have stays := stable memory after holds
  cases result with
  | ok result => exact answered result after rfl _ stays
  | error interrupt => exact stays

theorem forM {body : α → Search σ Unit} {elements : List α}
    (each : ∀ element ∈ elements, Keeps setting kept (body element)) :
    Keeps setting kept (elements.forM body) := by
  induction elements with
  | nil => exact Keeps.pure ()
  | cons element rest induction =>
      change Keeps setting kept (body element >>= fun _ => rest.forM body)
      apply (each element List.mem_cons_self).bind
      exact fun _ => induction fun other member =>
        each other (List.mem_cons_of_mem _ member)

theorem forIn {elements : List α} {start : β} {body : α → β → Search σ (ForInStep β)}
    (each : ∀ element ∈ elements, ∀ state, Keeps setting kept (body element state)) :
    Keeps setting kept (forIn elements start body) := by
  induction elements generalizing start with
  | nil => exact Keeps.pure start
  | cons element rest induction =>
      rw [List.forIn_cons]
      apply (each element List.mem_cons_self start).bind
      intro step
      cases step with
      | done result => exact Keeps.pure result
      | yield next =>
          exact induction fun other member =>
            each other (List.mem_cons_of_mem _ member)

end Keeps

end Inhabit.Search
