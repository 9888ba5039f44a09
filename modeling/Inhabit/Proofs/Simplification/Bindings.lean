import Inhabit.Proofs.Collections.Extensionality
import Inhabit.Proofs.Faults.Comparisons
import Inhabit.Proofs.Simplification.PassBound

/-! What simplification binds.

It only ever adds to an assignment: what is bound stays as it is, and a variable is bound
for the sake of a constraint whose scope leaves it free. The occurs check and the new names
in the copies keep cycles out, also where simplification fails. -/

namespace Inhabit

/-! ## Constraints on the way -/

/-- Rewriting the constraints of the queue comes to a workspace in which it is the turn of
this constraint. -/
inductive Visits : Workspace → (queue : List Constraint) → Workspace → Constraint → Prop where
  | here (workspace : Workspace) (constraint : Constraint) (rest : List Constraint) :
      Visits workspace (constraint :: rest) workspace constraint
  | decompose {before workspace : Workspace} {constraint visited : Constraint}
      {parts rest : List Constraint}
      (rewriting : constraint.rewriting before.state.assignment = .decompose parts)
      (later : Visits before (parts ++ rest) workspace visited) :
      Visits before (constraint :: rest) workspace visited
  | bind {before workspace : Workspace} {constraint visited : Constraint}
      {rest : List Constraint} {name : String} {type : RefinedType}
      (rewriting : constraint.rewriting before.state.assignment = .bind name type)
      (absent : before.state.assignment.occursIn name type = false)
      (later : Visits (before.bind constraint.env name type) (constraint :: rest) workspace
        visited) :
      Visits before (constraint :: rest) workspace visited
  | keep {before workspace : Workspace} {constraint visited : Constraint}
      {rest : List Constraint}
      (rewriting : constraint.rewriting before.state.assignment = .keep)
      (later : Visits (before.addSimple [constraint]) rest workspace visited) :
      Visits before (constraint :: rest) workspace visited
  | pass {before workspace : Workspace} {constraint visited : Constraint}
      {rest : List Constraint}
      (rewriting : constraint.rewriting before.state.assignment = .defer ∨
        constraint.rewriting before.state.assignment = .drop)
      (later : Visits before rest workspace visited) :
      Visits before (constraint :: rest) workspace visited

inductive Workspace.Treats : Workspace → Workspace → Constraint → Prop where
  | now {before workspace : Workspace} {visited : Constraint}
      (visits : Visits before.clearPending before.state.pending workspace visited) :
      Treats before workspace visited
  | later {before middle workspace : Workspace} {deferred : List Constraint}
      {visited : Constraint}
      (rewrites : Rewrites before.clearPending before.state.pending (.ok deferred) middle)
      (grown : middle.state.assignment.size ≠ before.state.assignment.size)
      (treats : Treats (middle.addPending deferred) workspace visited) :
      Treats before workspace visited

def Workspace.BindsFor (workspace : Workspace) (constraint : Constraint) (name : String)
    (copy : RefinedType) : Prop :=
  ∃ type, constraint.rewriting workspace.state.assignment = .bind name type ∧
    workspace.state.assignment.occursIn name type = false ∧
      copy = workspace.copyOf constraint.env type

theorem Workspace.BindsFor.isBound {workspace : Workspace} {constraint : Constraint}
    {name : String} {copy : RefinedType} (binds : workspace.BindsFor constraint name copy) :
    constraint.env.isBound name = false := by
  rcases binds with ⟨type, rewriting, _⟩
  have step := Constraint.step_of_rewriting rewriting
  exact step.binds.free

/-! ## Bindings -/

theorem Rewrites.exists_visit {before after : Workspace} {constraints : List Constraint}
    {result : Except Failure (List Constraint)}
    (rewrites : Rewrites before constraints result after) {name : String}
    {copy : RefinedType} (isOpen : before.state.assignment.find? name = none)
    (found : after.state.assignment.find? name = some copy) :
    ∃ workspace visited, Visits before constraints workspace visited ∧
      workspace.BindsFor visited name copy := by
  induction rewrites with
  | done | mismatch | occurs => cases isOpen.symm.trans found
  | decompose rewriting _ induction =>
      rcases induction isOpen found with ⟨workspace, visited, visits, binds⟩
      exact ⟨workspace, visited, .decompose rewriting visits, binds⟩
  | @bind before after constraint rest result other type rewriting absent continues induction =>
      by_cases same : name = other
      · subst same
        have kept := continues.extends name _ (SortedMap.find?_insert_self _ _ _)
        cases kept.symm.trans found
        exact ⟨before, constraint, .here before constraint rest, type, rewriting, absent, rfl⟩
      · have stillOpen : (before.bind constraint.env other type).state.assignment.find?
            name = none :=
          (SortedMap.find?_insert_of_ne _ same _).trans isOpen
        rcases induction stillOpen found with ⟨workspace, visited, visits, binds⟩
        exact ⟨workspace, visited, .bind rewriting absent visits, binds⟩
  | keep rewriting _ induction =>
      rcases induction isOpen found with ⟨workspace, visited, visits, binds⟩
      exact ⟨workspace, visited, .keep rewriting visits, binds⟩
  | defer rewriting _ induction =>
      rcases induction isOpen found with ⟨workspace, visited, visits, binds⟩
      exact ⟨workspace, visited, .pass (.inl rewriting) visits, binds⟩
  | drop rewriting _ induction =>
      rcases induction isOpen found with ⟨workspace, visited, visits, binds⟩
      exact ⟨workspace, visited, .pass (.inr rewriting) visits, binds⟩

namespace Simplifies

variable {before after : Workspace} {passes : Nat} {result : Except Failure Unit}

theorem exists_treated (simplifies : Simplifies before passes result after) {name : String}
    {copy : RefinedType} (isOpen : before.state.assignment.find? name = none)
    (found : after.state.assignment.find? name = some copy) :
    ∃ workspace visited, before.Treats workspace visited ∧
      workspace.BindsFor visited name copy := by
  induction simplifies with
  | fail rewrites | last rewrites =>
      rcases rewrites.exists_visit isOpen found with ⟨workspace, visited, visits, binds⟩
      exact ⟨workspace, visited, .now visits, binds⟩
  | @next before middle after deferred passes result rewrites grown continues induction =>
      cases early : middle.state.assignment.find? name with
      | none =>
          rcases induction early found with ⟨workspace, visited, treats, binds⟩
          exact ⟨workspace, visited, .later rewrites grown treats, binds⟩
      | some bound =>
          cases (continues.extends name bound early).symm.trans found
          rcases rewrites.exists_visit isOpen early with
            ⟨workspace, visited, visits, binds⟩
          exact ⟨workspace, visited, .now visits, binds⟩

theorem tame (simplifies : Simplifies before passes result after) (inOrder : before.Tame)
    (pending : ∀ constraint ∈ before.state.pending, constraint.Tame before.names) :
    after.Tame := by
  induction simplifies with
  | fail rewrites =>
      exact (rewrites.sound ⟨inOrder.acyclic, inOrder.keys, inOrder.types⟩ pending).tame
  | last rewrites =>
      have ends := rewrites.sound ⟨inOrder.acyclic, inOrder.keys, inOrder.types⟩ pending
      exact ⟨ends.tame.acyclic, ends.tame.keys, ends.tame.types⟩
  | @next before middle after deferred passes result rewrites grown _ induction =>
      have pass := rewrites.sound ⟨inOrder.acyclic, inOrder.keys, inOrder.types⟩ pending
      apply induction ⟨pass.tame.acyclic, pass.tame.keys, pass.tame.types⟩
      intro constraint member
      rcases List.mem_append.mp member with left | aside
      · exact (pass.pending constraint left).resolve_left List.not_mem_nil
      · exact pass.deferred deferred rfl constraint aside

theorem passes_le (simplifies : Simplifies before passes result after) :
    passes + before.state.assignment.size ≤ after.state.assignment.size + 1 := by
  induction simplifies with
  | fail rewrites | last rewrites =>
      have grown := rewrites.size_le
      rw [Nat.add_comm]
      exact Nat.succ_le_succ grown
  | @next before middle after deferred passes result rewrites grown _ induction =>
      have longer : before.state.assignment.size < middle.state.assignment.size :=
        Nat.lt_of_le_of_ne rewrites.size_le (Ne.symm grown)
      change passes + middle.state.assignment.size ≤ _ at induction
      omega

end Simplifies

namespace TypeAssignment

def newNames (before after : TypeAssignment) : Finset String :=
  after.keys.toFinset \ before.keys.toFinset

theorem size_sub_le_newNames (before after : TypeAssignment) :
    after.size - before.size ≤ (before.newNames after).card := by
  have fewer : before.keys.toFinset.card ≤ before.size := by
    calc before.keys.toFinset.card
        ≤ before.keys.length := List.toFinset_card_le _
      _ = before.size := List.length_map _
  have all : after.keys.toFinset.card = after.size := by
    rw [List.toFinset_card_of_nodup after.nodup_keys]
    exact List.length_map _
  calc after.size - before.size
      ≤ after.keys.toFinset.card - before.keys.toFinset.card := by omega
    _ ≤ (before.newNames after).card := Finset.le_card_sdiff _ _

end TypeAssignment

/-- Simplification leaves every binding as it is and binds variables only for constraints
whose scopes leave them free. However it ends, no cycle comes into being, so that following
the assignment comes to an end. If it succeeds, all its passes but the last one have bound
a variable. -/
theorem simplifyAll_extends_acyclic {steps : Nat} {before after : Workspace}
    {outcome : Except Interrupt Nat} (tame : before.Tame)
    (pending : ∀ constraint ∈ before.state.pending, constraint.Tame before.names)
    (ran : (simplifyAll steps).run.run before = (outcome, after))
    (finished : outcome ≠ .error .unfinished) :
    before.state.assignment.ExtendedBy after.state.assignment ∧
    (∀ name copy, before.state.assignment.find? name = none →
      after.state.assignment.find? name = some copy →
        ∃ workspace constraint, before.Treats workspace constraint ∧
          workspace.BindsFor constraint name copy ∧
            constraint.env.isBound name = false) ∧
    after.state.assignment.Acyclic ∧
    (∀ links name, after.state.assignment.size ≤ links →
      after.state.assignment.resolveWithin after.state.assignment.sorts links name =
        after.state.assignment.resolve name) ∧
    ∀ passes, outcome = .ok passes →
      passes - 1 ≤ (before.state.assignment.newNames after.state.assignment).card := by
  rcases simplifies_of_run ran finished with ⟨passes, result, simplifies, rfl⟩
  have acyclic := (simplifies.tame tame pending).acyclic
  refine ⟨simplifies.extends, fun name copy isOpen found => ?_, acyclic,
    fun links name enough => acyclic.resolveWithin_of_size_le enough name, ?_⟩
  · rcases simplifies.exists_treated isOpen found with ⟨workspace, visited, treats, binds⟩
    exact ⟨workspace, visited, treats, binds, binds.isBound⟩
  · intro counted ended
    cases result with
    | error _ => cases ended
    | ok _ =>
        have same : counted = passes := by
          cases ended
          rfl
        have bounded := simplifies.passes_le
        have new := before.state.assignment.size_sub_le_newNames after.state.assignment
        omega

def boxCircle : Workspace where
  names := {}
  state :=
    let var (name : String) : RefinedType := .atom (.typeVar name) .top
    let box (t : RefinedType) : RefinedType := .scalar (.data "Box") [t] .top
    { pending := [.subtype ∅ (var "x") (box (var "y")),
        .subtype ∅ (box (var "x")) (var "x")] }

theorem boxCircle_tame :
    ∀ constraint ∈ boxCircle.state.pending, constraint.Tame boxCircle.names := by
  have avoids : ∀ name ∈ ["x", "y"], NameSupply.Avoids {} name :=
    NameSupply.forall_avoids (by decide) _
  simp only [List.mem_cons, List.not_mem_nil, or_false, forall_eq_or_imp, forall_eq] at avoids
  simp [boxCircle, Constraint.Tame, Constraint.types, Skeleton.toTerm, Skeleton.toTerms, avoids]

/-- The occurs check ends the one run, after a variable has been bound. The other one ends
well, after five passes that bind variables. -/
theorem boxCircle_and_pairChain_acyclic :
    let circle := (simplifyAll 40).run.run boxCircle
    let chain := (simplifyAll 40).run.run pairChain
    (circle.1.isOk = false ∧ circle.2.state.assignment.keys = ["x"] ∧
      circle.2.state.assignment.Acyclic ∧
      ∀ name copy, boxCircle.state.assignment.find? name = none →
        circle.2.state.assignment.find? name = some copy →
          ∃ workspace constraint, boxCircle.Treats workspace constraint ∧
            workspace.BindsFor constraint name copy ∧
              constraint.env.isBound name = false) ∧
    chain.1 = .ok 6 ∧ chain.2.state.assignment.Acyclic ∧
      6 - 1 ≤ (pairChain.state.assignment.newNames chain.2.state.assignment).card := by
  have circle := (Prod.eta ((simplifyAll 40).run.run boxCircle)).symm
  have chain := (Prod.eta ((simplifyAll 40).run.run pairChain)).symm
  rcases simplifyAll_extends_acyclic (.of_empty rfl) boxCircle_tame circle
    (by decide +kernel) with ⟨_, bound, acyclic, _⟩
  have six : ((simplifyAll 40).run.run pairChain).1 = .ok 6 := by decide +kernel
  rcases simplifyAll_extends_acyclic (.of_empty rfl) pairChain_tame chain
    (by decide +kernel) with ⟨_, _, chainAcyclic, _, passes⟩
  exact ⟨⟨by decide +kernel, by decide +kernel, acyclic, bound⟩, six, chainAcyclic,
    passes 6 six⟩

end Inhabit
