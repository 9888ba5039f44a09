import Inhabit.Proofs.Faults.Outcomes
import Inhabit.Proofs.Search.Paths

/-! A fault stops the search at once.

An interrupt that passes every choice point is the last that happens in a run, and the
run ends with it. -/

namespace Inhabit

def Event.interrupt? : Event → Option Interrupt
  | .pruned _ (.error interrupt) | .refined _ _ _ _ (.error interrupt)
  | .raised interrupt => some interrupt
  | _ => none

/-- The search meets with the interrupt and is stopped by it. -/
def Event.Stops (event : Event) (interrupt : Interrupt) : Prop :=
  event.interrupt? = some interrupt ∧ interrupt.stops = true

def Calm (events : List Event) : Prop :=
  ∀ event ∈ events, ∀ interrupt, ¬ event.Stops interrupt

theorem Calm.append {earlier later : List Event} (first : Calm earlier)
    (second : Calm later) : Calm (earlier ++ later) :=
  List.forall_mem_append.mpr ⟨first, second⟩

def Passes (outcome : Except Interrupt α) : Prop :=
  ∀ interrupt, outcome = .error interrupt → interrupt.stops = false

inductive Settled (events : List Event) (outcome : Except Interrupt α) : Prop where
  | calm (calm : Calm events) (passes : Passes outcome)
  | stopped {earlier : List Event} {event : Event} {interrupt : Interrupt}
      (last : events = earlier ++ [event]) (calm : Calm earlier)
      (stops : event.Stops interrupt) (ends : outcome = .error interrupt)

namespace Settled

variable {events earlier : List Event} {outcome : Except Interrupt α}

theorem calm_of_passes (settled : Settled events outcome) (passes : Passes outcome) :
    Calm events := by
  cases settled with
  | calm calm _ => exact calm
  | stopped _ _ stops ends => cases (passes _ ends).symm.trans stops.2

theorem prepend (settled : Settled events outcome) (first : Calm earlier) :
    Settled (earlier ++ events) outcome := by
  cases settled with
  | calm calm passes => exact .calm (first.append calm) passes
  | stopped last calm stops ends =>
      exact .stopped (by rw [last, List.append_assoc]) (first.append calm) stops ends

theorem single {event : Event}
    (told : ∀ interrupt, event.interrupt? = some interrupt ↔ outcome = .error interrupt) :
    Settled [event] outcome := by
  by_cases passes : Passes outcome
  · apply calm (List.forall_mem_singleton.mpr _) passes
    rintro interrupt ⟨met, stops⟩
    cases (passes interrupt ((told interrupt).mp met)).symm.trans stops
  · simp only [Passes, not_forall, Bool.not_eq_false] at passes
    rcases passes with ⟨interrupt, ends, stops⟩
    exact stopped (List.nil_append _).symm (List.forall_mem_nil _)
      ⟨(told interrupt).mpr ends, stops⟩ ends

theorem raised (interrupt : Interrupt) :
    Settled [.raised interrupt] (.error interrupt : Except Interrupt α) := by
  apply single
  intro other
  simp [Event.interrupt?]

theorem nothing (value : α) : Settled [] (.ok value) :=
  .calm (List.forall_mem_nil _) nofun

end Settled

namespace Search

variable {σ : Type} {α : Type} {setting : Setting σ} {run : Search σ α}
  {memory : Memory σ}

theorem Step.settled {events : Memory σ → List Event} (step : Step setting run events) :
    Settled (events memory) (run setting memory).1 := by
  cases step with
  | pure | get | read | naming | change => exact .nothing _
  | fail failure => exact .raised _
  | lower clause =>
      have lowered : Settled [.lowered clause] (.ok () : Except Interrupt Unit) :=
        .single (by simp [Event.interrupt?])
      exact lowered
  | simplify =>
      dsimp only
      cases (rewrite simplifyAll setting memory : Except Interrupt Nat × Memory σ).1 with
      | ok _ => exact .nothing _
      | error interrupt => exact .raised interrupt
  | prune space =>
      unfold ask
      dsimp only
      rcases (setting.solver.prune space).run memory.solver with ⟨answer, solver⟩
      apply Settled.single
      cases answer <;> simp [Event.interrupt?]
  | refine program =>
      rw [run_refineCandidates]
      dsimp only
      rcases refinement setting program memory with ⟨answer, solver⟩
      match answer with
      | .error interrupt => exact .single (by simp [Event.interrupt?])
      | .ok [] =>
          have asked : Calm [.refined memory.state.clauses memory.state.qualifiers program
              memory.state.candidates (.ok [])] :=
            List.forall_mem_singleton.mpr fun _ stops => nomatch stops.1
          exact (Settled.raised (.failed .unsatisfiable)).prepend asked
      | .ok (first :: rest) => exact .single (by simp [Event.interrupt?])

theorem Trace.settled {branch events : List Event} {ended : Except Interrupt α × Memory σ}
    (trace : Trace setting run memory branch events ended) : Settled events ended.1 := by
  have attempted : Calm [.attempted] :=
    List.forall_mem_singleton.mpr fun _ stops => nomatch stops.1
  induction trace with
  | step step memory => exact step.settled
  | stop _ induction =>
      cases induction with
      | calm calm passes =>
          exact .calm calm fun interrupt equal => passes interrupt (by cases equal; rfl)
      | stopped last calm stops ends =>
          exact .stopped last calm stops (by cases ends; rfl)
  | next _ _ first second => exact second.prepend (first.calm_of_passes nofun)
  | exhausted => exact .raised _
  | taken _ _ induction => exact induction.prepend attempted
  | passed _ recoverable _ first second =>
      apply second.prepend
      apply attempted.append (first.calm_of_passes _)
      rintro _ ⟨⟩
      exact recoverable

end Search

theorem Settled.of_stops {events earlier later : List Event} {event : Event}
    {interrupt : Interrupt} {outcome : Except Interrupt α} (settled : Settled events outcome)
    (split : events = earlier ++ event :: later) (stops : event.Stops interrupt) :
    later = [] ∧ outcome = .error interrupt := by
  cases settled with
  | calm calm _ =>
      rw [split] at calm
      exact absurd stops (calm event (List.mem_append_right _ List.mem_cons_self) interrupt)
  | @stopped before last other equal calm stopped ends =>
      rcases List.eq_nil_or_concat later with rfl | ⟨between, final, rfl⟩
      · rw [split] at equal
        have same : event = last := List.head_eq_of_cons_eq (List.append_inj' equal rfl).2
        subst same
        cases stopped.1.symm.trans stops.1
        exact ⟨rfl, ends⟩
      -- Were there others after it, it would be among the events before the last.
      · rw [split, List.concat_eq_append, ← List.cons_append, ← List.append_assoc] at equal
        have front := (List.append_inj' equal rfl).1
        rw [← front] at calm
        exact absurd stops (calm event (List.mem_append_right _ List.mem_cons_self) interrupt)

theorem synthesize_of_stops {setting : Setting σ} {goal : Goal} {solver : σ}
    {memory : Memory σ} {interrupt : Interrupt}
    (ran : goal.search setting (setting.start solver) = (.error interrupt, memory))
    (stops : interrupt.stops = true) :
    (synthesize setting goal solver).1 = .error interrupt := by
  unfold synthesize
  change (goal.search.run setting).run.run (setting.start solver) = _ at ran
  rw [ran]
  match interrupt with
  | .trapped _ | .unfinished => rfl
  | .failed failure =>
      have fatal : failure.isFatal = true := stops
      dsimp only
      rw [if_pos fatal]

/-- A run can be told event by event. If an event meets with an interrupt that stops the
search, no event comes after it, and the interrupt is what the synthesis returns. Any
other error is that there is no solution. -/
theorem faults_stop_the_search (setting : Setting σ) (goal : Goal) (solver : σ) :
    (∃ branch events ended,
      Search.Trace setting goal.search (setting.start solver) branch events ended) ∧
    ∀ branch events ended,
      Search.Trace setting goal.search (setting.start solver) branch events ended →
        (∀ earlier event later interrupt, events = earlier ++ event :: later →
          event.interrupt? = some interrupt → interrupt.stops = true →
            later = [] ∧ (synthesize setting goal solver).1 = .error interrupt) ∧
        ∀ interrupt, (synthesize setting goal solver).1 = .error interrupt →
          (interrupt.stops = true ∧ ∃ earlier event, events = earlier ++ [event] ∧
            event.interrupt? = some interrupt) ∨
          interrupt = .failed ⟨.noSolution goal.name, none⟩ := by
  constructor
  · rcases goal.traced_search setting (setting.start solver) with
      ⟨branch, events, ended, trace, _⟩
    exact ⟨branch, events, ended, trace⟩
  intro branch events ended trace
  have settled := trace.settled
  have ran := trace.run_eq
  constructor
  · intro earlier event later interrupt split met stops
    rcases settled.of_stops split ⟨met, stops⟩ with ⟨last, ends⟩
    exact ⟨last, synthesize_of_stops (ran.trans (Prod.ext ends rfl)) stops⟩
  · intro interrupt ends
    rcases synthesize_cases (Prod.eta (synthesize setting goal solver)).symm with
      ⟨memory, _, ⟨program, outcome, _⟩ | ⟨stopped, outcome, stops, found⟩ | outcome⟩
    · cases outcome.symm.trans ends
    · cases outcome.symm.trans ends
      rw [← ran, found] at settled
      cases settled with
      | calm _ passes => cases (passes _ rfl).symm.trans stops
      | stopped last _ met same =>
          cases same
          exact .inl ⟨stops, _, _, last, met.1⟩
    · cases outcome.symm.trans ends
      exact .inr rfl

/-- The fault of a search in batches is the last of its events. -/
theorem boxGoal_stops :
    let fault : Interrupt := .failed ⟨.missingConstructor "box",
      some (.note "`Box _a1` does not construct `\x7bBool | _v == b\x7d`")⟩
    (synthesize (boxSetting false) boxGoal {}).1.map Program.render = .error fault ∧
      ∃ branch earlier event ended,
        Search.Trace (boxSetting false) boxGoal.search ((boxSetting false).start {}) branch
          (earlier ++ [event]) ended ∧ event.interrupt? = some fault := by
  intro fault
  have faults : (synthesize (boxSetting false) boxGoal {}).1.map Program.render =
      .error fault := by
    decide +kernel
  refine ⟨faults, ?_⟩
  rcases faults_stop_the_search (boxSetting false) boxGoal {} with
    ⟨⟨branch, events, ended, trace⟩, settles⟩
  have converse := (settles branch events ended trace).2 fault
  revert faults converse
  cases (synthesize (boxSetting false) boxGoal {}).1 with
  | ok _ => exact nofun
  | error interrupt =>
      intro faults converse
      cases faults
      rcases converse rfl with ⟨_, earlier, event, rfl, met⟩ | noSolution
      · exact ⟨branch, earlier, event, ended, trace, met⟩
      · exact absurd noSolution (by decide)

end Inhabit
