import Inhabit.Proofs.Search.Invariants
import Inhabit.Search.Solve

/-! What lowering keeps true of the state of a branch.

Lowering changes a state in four ways only. So whatever these keep true is true when all
constraints have been lowered, or when lowering has failed on the way. -/

namespace Inhabit

def Solver.Prunes (solver : Solver σ) (space pruned : QualifierSpace) : Prop :=
  ∃ memory after, (solver.prune space).run memory = (.ok pruned, after)

namespace Search

variable {σ : Type} {setting : Setting σ} {kept : SearchState → Prop}

inductive Changes (setting : Setting σ) (assignment : TypeAssignment) :
    Constraint → (SearchState → SearchState) → Prop where
  | again (env : Environment) (left right : RefinedType) :
      Changes setting assignment (.subtype env left right)
        (·.addPending [.subtype env left right])
  | clause (env : Environment) (base : BaseType) (left right : Formula) :
      Changes setting assignment (.subtype env (.atom base left) (.atom base right))
        (·.addClause (subtypeClause env assignment (assignment.applyFormula left)
          (assignment.applyFormula right)))
  | refinement (env : Environment) (base : BaseType) {refinement : Formula}
      {unknown : String} {pruned : QualifierSpace}
      (occurs : unknown ∈ refinement.unknownOccurrences)
      (prunes : setting.solver.Prunes (setting.sources.refinements
        (assignment.applyFormula (.value base.sort) :: env.scalars assignment)) pruned) :
      Changes setting assignment (.wellFormed env (.atom base refinement))
        fun state => { state with qualifiers := state.qualifiers.insert unknown pruned }
  | guard (env : Environment) (pending : Substitution) {unknown : String}
      {pruned : QualifierSpace}
      (prunes : setting.solver.Prunes (setting.sources.guards (env.scalars assignment))
        pruned) :
      Changes setting assignment (.wellFormedGuard env (.unknown pending unknown))
        fun state => { state with qualifiers := state.qualifiers.insert unknown pruned }

/-- Every change that lowering the constraint can bring keeps the property, under the
assignment of a state that has it. -/
def Suits (setting : Setting σ) (kept : SearchState → Prop) (constraint : Constraint) :
    Prop :=
  ∀ before, kept before → ∀ change, Changes setting before.assignment constraint change →
    ∀ state, kept state → kept (change state)

theorem keeps_state_addQualifiers {unknown : String} {space : QualifierSpace}
    (records : ∀ pruned, setting.solver.Prunes space pruned → ∀ state, kept state →
      kept { state with qualifiers := state.qualifiers.insert unknown pruned }) :
    Keeps setting (fun memory => kept memory.state)
      (addQualifiers unknown space : Search σ Unit) := by
  apply Keeps.ask_bind
  · exact fun _ _ holds => holds
  · exact fun solver pruned after asked => Keeps.modifyState fun memory holds =>
      records pruned ⟨solver, after, asked⟩ memory.state holds

theorem Suits.keeps {constraint : Constraint} (suits : Suits setting kept constraint) :
    Keeps setting (fun memory => kept memory.state) (lower constraint : Search σ Unit) := by
  apply Keeps.get_bind
  intro memory holds
  have changes := suits memory.state holds
  dsimp only
  split
  case h_1 env left right =>
    split
    · exact Keeps.modifyState fun memory => changes _ (.again env left right) memory.state
    · split
      · split
        case isTrue same =>
          subst same
          split
          · exact Keeps.pure ()
          · exact Keeps.modifyState fun memory =>
              changes _ (.clause env _ _ _) memory.state
        case isFalse => exact Keeps.fail _
      · exact Keeps.fail _
  case h_2 env base refinement =>
    apply Keeps.bind
    · apply Keeps.forIn
      intro unknown member _
      have occurs := SortedSet.mem_ofList.mp (List.mem_filter.mp member).1
      apply Keeps.read_bind
      apply Keeps.bind
      · exact keeps_state_addQualifiers fun _ prunes =>
          changes _ (.refinement env base occurs prunes)
      · exact fun _ => Keeps.pure _
    · exact fun _ => Keeps.pure ()
  case h_3 env pending unknown =>
    split
    · exact Keeps.pure ()
    · apply Keeps.read_bind
      exact keeps_state_addQualifiers fun _ prunes =>
        changes _ (.guard env pending prunes)
  all_goals exact Keeps.fail _

theorem keeps_lowerAll {memory : Memory σ} (holds : kept memory.state)
    (cleared : ∀ state, kept state → kept { state with simple := [] })
    (suits : ∀ constraint ∈ memory.state.simple, Suits setting kept constraint) :
    kept (lowerAll setting memory).2.state := by
  let clear (state : SearchState) : SearchState := { state with simple := [] }
  have keeps : Keeps setting (fun memory => kept memory.state)
      (modifyState clear >>= fun _ => memory.state.simple.forM lower : Search σ Unit) := by
    apply Keeps.bind
    · exact Keeps.modifyState fun memory => cleared memory.state
    · exact fun _ => Keeps.forM fun constraint member => (suits constraint member).keeps
  exact keeps memory holds

theorem assignment_lowerAll (setting : Setting σ) (memory : Memory σ) :
    (lowerAll setting memory).2.state.assignment = memory.state.assignment := by
  let kept (state : SearchState) : Prop := state.assignment = memory.state.assignment
  have starts : kept memory.state := rfl
  apply keeps_lowerAll starts fun _ => id
  rintro constraint _ _ _ _ (_ | _ | _ | _) _ same
  all_goals exact same

end Search

end Inhabit
