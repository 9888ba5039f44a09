import Inhabit.Proofs.Enumeration.Comparisons

/-! Comparisons with the shape of a function that is looked for.

The arguments of such a shape are variables that nothing has been assigned to. A type that
takes as many arguments to the same result binds them to copies of its own arguments; any
other type is refused. -/

namespace Inhabit

open Skeleton

/-! ## Assignments to types without free variables -/

namespace TypeAssignment

def Grounded (assignment : TypeAssignment) (env : Environment) : Prop :=
  ∀ name t, assignment.find? name = some t → env.isBound name = false ∧ env.Rigid t

theorem grounded_empty (env : Environment) : Grounded ∅ env :=
  fun name _ found => nomatch (SortedMap.find?_empty name).symm.trans found

variable {assignment : TypeAssignment} {env : Environment}

namespace Grounded

variable (grounded : assignment.Grounded env)

include grounded

theorem find?_of_isBound {name : String} (bound : env.isBound name = true) :
    assignment.find? name = none := by
  cases found : assignment.find? name with
  | none => rfl
  | some t =>
      rw [(grounded name t found).1] at bound
      cases bound

theorem shape_instantiate {t : RefinedType} (rigid : env.Rigid t) (sorts : SortAssignment)
    (links : Nat) :
    (t.instantiate sorts (assignment.resolveWithin sorts links)).shape = t.shape :=
  RefinedType.shape_instantiate fun name occurs =>
    resolveWithin_of_unassigned (grounded.find?_of_isBound (rigid name occurs)) sorts links

theorem shape_apply {t : RefinedType} (rigid : env.Rigid t) :
    (assignment.apply t).shape = t.shape :=
  grounded.shape_instantiate rigid _ _

theorem shape_apply_typeVar {name : String} {t : RefinedType}
    (assigned : assignment.find? name = some t) (refinement : Formula) :
    (assignment.apply (.atom (.typeVar name) refinement)).shape = t.shape := by
  have entry := SortedMap.mem_entries_of_find? assigned
  rcases Nat.exists_eq_succ_of_ne_zero (List.length_pos_of_mem entry).ne' with ⟨links, size⟩
  have resolved : assignment.resolve name =
      some (t.instantiate assignment.sorts (assignment.resolveWithin assignment.sorts links)) := by
    unfold resolve
    rw [SortedMap.size, size, resolveWithin, assigned, Option.map_some]
  unfold apply
  rw [RefinedType.instantiate, resolved]
  exact (RefinedType.shape_addRefinement _ _).trans
    (grounded.shape_instantiate (grounded name t assigned).2 _ _)

theorem occursIn_eq_false {name : String} {t : RefinedType} (free : env.isBound name = false)
    (rigid : env.Rigid t) : assignment.occursIn name t = false := by
  rw [Bool.eq_false_iff, ne_eq, occursIn, SortedSet.contains_iff_mem, Skeleton.typeVars,
    SortedSet.mem_ofList]
  intro occurs
  have applied : env.Rigid (assignment.apply t) := rigid.of_shape (grounded.shape_apply rigid)
  rw [applied name occurs] at free
  cases free

end Grounded

end TypeAssignment

/-! ## What a comparison leaves behind -/

/-- Each of the variables has been bound to a type without free variables, which is to be
well formed, and atomic constraints have been added. -/
structure Workspace.Binds (env : Environment) (vars : List String) (room : Nat)
    (before after : Workspace) : Prop where
  pending : ∃ copies : List (Environment × RefinedType), copies.length = vars.length ∧
    (∀ copy ∈ copies, copy.1.Rigid copy.2 ∧ copy.2.toTerm.size ≤ room) ∧
      after.state.pending = before.state.pending ++
        copies.map fun copy => .wellFormed copy.1 copy.2
  simple : ∃ atoms : List Constraint, (∀ atom ∈ atoms, atom.Closed) ∧
    after.state.simple = before.state.simple ++ atoms
  assigned : ∀ name t, after.state.assignment.find? name = some t →
    before.state.assignment.find? name = some t ∨ name ∈ vars ∧ env.Rigid t
  size : after.state.assignment.size = before.state.assignment.size + vars.length

namespace Workspace.Binds

variable {env : Environment} {vars first second : List String} {room other : Nat}
  {before middle after : Workspace}

theorem addSimple {atoms : List Constraint} (closed : ∀ atom ∈ atoms, atom.Closed) :
    Binds env [] room before (before.addSimple atoms) where
  pending := ⟨[], rfl, List.forall_mem_nil _, (List.append_nil _).symm⟩
  simple := ⟨atoms, closed, rfl⟩
  assigned _ _ := .inl
  size := rfl

theorem mono (binds : Binds env vars room before after) (within : room ≤ other) :
    Binds env vars other before after where
  pending := by
    rcases binds.pending with ⟨copies, length, each, equal⟩
    exact ⟨copies, length, fun copy member => (each copy member).imp_right (·.trans within), equal⟩
  simple := binds.simple
  assigned := binds.assigned
  size := binds.size

theorem trans (early : Binds env first room before middle)
    (late : Binds env second room middle after) :
    Binds env (first ++ second) room before after where
  pending := by
    rcases early.pending with ⟨copies, length, each, equal⟩
    rcases late.pending with ⟨more, lengthMore, eachMore, equalMore⟩
    refine ⟨copies ++ more, ?_, List.forall_mem_append.mpr ⟨each, eachMore⟩, ?_⟩
    · rw [List.length_append, List.length_append, length, lengthMore]
    · rw [equalMore, equal, List.append_assoc, List.map_append]
  simple := by
    rcases early.simple with ⟨atoms, each, equal⟩
    rcases late.simple with ⟨more, eachMore, equalMore⟩
    refine ⟨atoms ++ more, List.forall_mem_append.mpr ⟨each, eachMore⟩, ?_⟩
    rw [equalMore, equal, List.append_assoc]
  assigned name t found := by
    rcases late.assigned name t found with old | ⟨member, rigid⟩
    · exact (early.assigned name t old).imp_right fun new =>
        ⟨List.mem_append_left _ new.1, new.2⟩
    · exact .inr ⟨List.mem_append_right _ member, rigid⟩
  size := by
    rw [late.size, early.size, List.length_append, Nat.add_assoc]

theorem grounded (binds : Binds env vars room before after)
    (start : before.state.assignment.Grounded env)
    (free : ∀ name ∈ vars, env.isBound name = false) : after.state.assignment.Grounded env := by
  intro name t found
  rcases binds.assigned name t found with old | ⟨member, rigid⟩
  · exact start name t old
  · exact ⟨free name member, rigid⟩

theorem unassigned (binds : Binds env vars room before after) {name : String}
    (isOpen : before.state.assignment.find? name = none) (other : name ∉ vars) :
    after.state.assignment.find? name = none := by
  cases found : after.state.assignment.find? name with
  | none => rfl
  | some t =>
      rcases binds.assigned name t found with old | ⟨member, _⟩
      · cases isOpen.symm.trans old
      · exact absurd member other

end Workspace.Binds

/-! ## Variables -/

section Variables

variable {env scope : Environment} {before : Workspace} {name : String} {t : RefinedType}
  (same : scope.boundTypeVars = env.boundTypeVars) (rigid : env.Rigid t)
  (isOpen : before.state.assignment.find? name = none)

include same rigid isOpen

theorem Workspace.binds_bind :
    Binds env [name] t.toTerm.size before (before.bind scope name t) := by
  have scopeRigid := (Environment.rigid_congr same).mpr rigid
  have shape : (before.copyOf scope t).shape = t.shape :=
    Environment.shape_freshCopy scopeRigid before.names
  constructor
  · refine ⟨[(scope, before.copyOf scope t)], rfl, List.forall_mem_singleton.mpr ⟨?_, ?_⟩, rfl⟩
    · exact scopeRigid.of_shape shape
    · rw [RefinedType.toTerm_of_shape shape]
  · exact ⟨[], List.forall_mem_nil _, (List.append_nil _).symm⟩
  · intro other u found
    rw [assignment_bind, SortedMap.find?_insert] at found
    split at found
    · cases found
      subst other
      exact .inr ⟨List.mem_singleton_self _, rigid.of_shape shape⟩
    · exact .inl found
  · rw [assignment_bind]
    exact TypeAssignment.size_insert isOpen _

theorem settles_typeVar (free : env.isBound name = false)
    (grounded : before.state.assignment.Grounded env) (refinement : Formula) :
    ∃ after, Settles (2 * t.toTerm.size + 1) before
        [.subtype scope (.atom (.typeVar name) refinement) t] after ∧
      Workspace.Binds env [name] t.toTerm.size before after := by
  have scopeRigid := (Environment.rigid_congr same).mpr rigid
  have isFree : scope.freeVar? (.atom (.typeVar name) refinement) = some name := by
    refine Environment.freeVar?_eq_some.mpr ⟨⟨refinement, rfl⟩, ?_⟩
    unfold Environment.isBound at free ⊢
    rwa [same]
  have isRigid := Environment.freeVar?_of_rigid scopeRigid
  have binds := Workspace.binds_bind same rigid isOpen
  have bindsHere : Constraint.rewriting before.state.assignment
      (.subtype scope (.atom (.typeVar name) refinement) t) = .bind name t := by
    simp [Constraint.rewriting, Constraint.isAssignedVar, isFree, isRigid,
      SortedMap.contains, isOpen]
  let bound := before.bind scope name t
  have assigned : bound.state.assignment.find? name = some (before.copyOf scope t) :=
    SortedMap.find?_insert_self _ _ _
  have applies : Constraint.rewriting bound.state.assignment
      (.subtype scope (.atom (.typeVar name) refinement) t) =
        .decompose [.subtype scope (bound.state.assignment.apply (.atom (.typeVar name) refinement))
          (bound.state.assignment.apply t)] := by
    simp [Constraint.rewriting, Constraint.isAssignedVar, isFree, SortedMap.contains, assigned]
  have groundedNow : bound.state.assignment.Grounded env :=
    binds.grounded grounded (List.forall_mem_singleton.mpr free)
  have left : (bound.state.assignment.apply (.atom (.typeVar name) refinement)).shape = t.shape :=
    (groundedNow.shape_apply_typeVar assigned refinement).trans
      (Environment.shape_freshCopy scopeRigid before.names)
  have right : (bound.state.assignment.apply t).shape = t.shape := groundedNow.shape_apply rigid
  have decides := Constraint.decides_subtype scope _ _ (scopeRigid.of_shape left)
    (scopeRigid.of_shape right)
  rw [RefinedType.toTerm_of_shape left, RefinedType.toTerm_of_shape right] at decides
  rcases decides.settles rfl bound with ⟨atoms, closed, settles⟩
  refine ⟨bound.addSimple atoms, ?_, binds.trans (.addSimple closed)⟩
  refine Settles.mono (.bind bindsHere (grounded.occursIn_eq_false free rigid)
    (.decompose applies settles)) ?_
  have := t.toTerm.size_pos
  omega

end Variables

/-! ## Functions that await arguments -/

/-- The type takes variables that the scope leaves free, in this order, to a type that is
this one once erased. -/
inductive Awaits (env : Environment) : (vars : List String) → RefinedType →
    (result : TypeTerm) → Prop where
  | done {t : RefinedType} (rigid : env.Rigid t) : Awaits env [] t t.toTerm
  | argument {var : String} {vars : List String} {rest : RefinedType} {result : TypeTerm}
      (name : String) (refinement : Formula) (free : env.isBound var = false)
      (further : Awaits env vars rest result) :
      Awaits env (var :: vars) (.function name (.atom (.typeVar var) refinement) rest) result

theorem Awaits.free {env : Environment} {vars : List String} {t : RefinedType}
    {result : TypeTerm} (awaits : Awaits env vars t result) :
    ∀ var ∈ vars, env.isBound var = false := by
  induction awaits with
  | done => exact List.forall_mem_nil _
  | argument _ _ free _ induction => exact List.forall_mem_cons.mpr ⟨free, induction⟩

theorem Awaits.arity {env : Environment} {vars : List String} {t : RefinedType}
    {result : TypeTerm} (awaits : Awaits env vars t result) :
    t.arity = vars.length + result.arity := by
  induction awaits with
  | done => rw [arity_toTerm, List.length_nil, Nat.zero_add]
  | argument _ _ _ _ induction =>
      rw [Skeleton.arity, induction, List.length_cons]
      omega

/-- The comparison goes well exactly if the type takes as many arguments to the result as
there are variables, and then binds these. -/
structure DecidesPattern (env scope : Environment) (vars : List String) (result : TypeTerm)
    (before : Workspace) (left right : RefinedType) : Prop where
  settles : ∀ arguments, arguments.length = vars.length → left.toTerm = .arrows arguments result →
    ∃ after, Settles (3 * left.toTerm.size + result.size - 1) before
        [.subtype scope left right] after ∧
      Workspace.Binds env vars left.toTerm.size before after
  refuses : (∀ arguments, arguments.length = vars.length → left.toTerm ≠ .arrows arguments result) →
    Refuses (3 * left.toTerm.size + result.size - 1) before [.subtype scope left right]

namespace DecidesPattern

variable {env scope : Environment} {var : String} {vars : List String}
  {argument left right rest : RefinedType} {result : TypeTerm} {before : Workspace}

theorem done (leftRigid : scope.Rigid left) (rightRigid : scope.Rigid right) :
    DecidesPattern env scope [] right.toTerm before left right := by
  have decides := Constraint.decides_subtype scope left right leftRigid rightRigid
  have cheaper : left.toTerm.size + right.toTerm.size - 1 ≤
      3 * left.toTerm.size + right.toTerm.size - 1 := by omega
  constructor
  · intro arguments none equal
    rw [List.length_nil, List.length_eq_zero_iff] at none
    subst none
    rcases decides.settles equal before with ⟨atoms, closed, settles⟩
    exact ⟨_, settles.mono cheaper, .addSimple closed⟩
  · exact fun different => (decides.refuses (different [] rfl) before).mono cheaper

theorem scalar {base : BaseType} {arguments : List RefinedType} {refinement : Formula}
    (mismatch : (Constraint.subtype scope (.scalar base arguments refinement) right).rewriting
      before.state.assignment = .mismatch) :
    DecidesPattern env scope (var :: vars) result before (.scalar base arguments refinement)
      right := by
  have := (Skeleton.scalar base arguments refinement).toTerm.size_pos
  constructor
  · intro types length equal
    have arities := congrArg TypeTerm.arity equal
    rw [arity_toTerm, TypeTerm.arity_arrows, length] at arities
    cases (Nat.add_eq_zero_iff.mp arities.symm).1
  · exact fun _ => (Refuses.mismatch mismatch).mono (by omega)

theorem function {x y : String} {refinement : Formula} {leftResult renamed : RefinedType}
    {inner : Environment} {middle : Workspace}
    (decomposes : (Constraint.subtype scope (.function x argument leftResult)
        (.function y (.atom (.typeVar var) refinement) rest)).rewriting before.state.assignment =
      .decompose [.subtype scope (.atom (.typeVar var) refinement) argument,
        .subtype inner renamed rest])
    (settles : Settles (2 * argument.toTerm.size + 1) before
      [.subtype scope (.atom (.typeVar var) refinement) argument] middle)
    (binds : Workspace.Binds env [var] argument.toTerm.size before middle)
    (renames : renamed.toTerm = leftResult.toTerm)
    (further : DecidesPattern env inner vars result middle renamed rest) :
    DecidesPattern env scope (var :: vars) result before (.function x argument leftResult)
      (.function y (.atom (.typeVar var) refinement) rest) := by
  have total := Skeleton.size_toTerm_function x argument leftResult
  have costs : (2 * argument.toTerm.size + 1) +
      (3 * renamed.toTerm.size + result.size - 1) + 1 ≤
        3 * (Skeleton.function x argument leftResult).toTerm.size + result.size - 1 := by
    have := leftResult.toTerm.size_pos
    have := result.size_pos
    rw [renames]
    omega
  constructor
  · intro types length equal
    cases types with
    | nil => cases length
    | cons first others =>
        rw [Skeleton.toTerm_function, TypeTerm.arrows_cons] at equal
        injection equal with _ parts
        injection parts with _ results
        injection results with results
        rcases further.settles others (Nat.succ_inj.mp length) (renames.trans results) with
          ⟨after, settlesRest, bindsRest⟩
        rw [renames] at bindsRest
        exact ⟨after, (Settles.decompose decomposes (settles.append settlesRest)).mono costs,
          (binds.mono (by omega)).trans (bindsRest.mono (by omega))⟩
  · intro different
    have refuses := further.refuses fun others length equal =>
      different (argument.toTerm :: others) (congrArg (· + 1) length)
        (by rw [Skeleton.toTerm_function, TypeTerm.arrows_cons, ← renames, equal])
    exact (Refuses.decompose decomposes (.append_right settles refuses)).mono costs

end DecidesPattern

theorem Awaits.decides {env scope : Environment} {vars : List String}
    {left right : RefinedType} {result : TypeTerm} {before : Workspace}
    (awaits : Awaits env vars right result) (same : scope.boundTypeVars = env.boundTypeVars)
    (rigid : env.Rigid left) (distinct : vars.Nodup)
    (isOpen : ∀ var ∈ vars, before.state.assignment.find? var = none)
    (grounded : before.state.assignment.Grounded env) :
    DecidesPattern env scope vars result before left right := by
  induction awaits generalizing scope left before with
  | done isRigid =>
      exact .done ((Environment.rigid_congr same).mpr rigid)
        ((Environment.rigid_congr same).mpr isRigid)
  | @argument var vars rest result name refinement free further induction =>
      have rewriting := Constraint.rewriting_of_freeVar?_eq_none
        (Environment.freeVar?_of_rigid ((Environment.rigid_congr same).mpr rigid))
        (Option.eq_none_iff_forall_ne_some.mpr nofun :
          scope.freeVar? (.function name (.atom (.typeVar var) refinement) rest) = none)
        before.state.assignment
      cases left with
      | scalar base arguments other => exact .scalar rewriting
      | function x argument leftResult =>
          rcases Environment.rigid_function.mp rigid with ⟨argumentRigid, resultRigid⟩
          rcases Constraint.decomposeSubtype_functions scope x argument name
            (.atom (.typeVar var) refinement) rest
            ((Environment.rigid_congr same).mpr resultRigid) with
            ⟨inner, renamed, bound, renamedRigid, renames, decomposes⟩
          rcases settles_typeVar same argumentRigid (isOpen var List.mem_cons_self) free grounded
            refinement with ⟨middle, settles, binds⟩
          have unassigned : ∀ other ∈ vars, middle.state.assignment.find? other = none := by
            intro other member
            apply binds.unassigned (isOpen other (List.mem_cons_of_mem _ member))
            rw [List.mem_singleton]
            rintro rfl
            exact (List.nodup_cons.mp distinct).1 member
          exact .function (rewriting.trans decomposes) settles binds renames
            (induction (bound.trans same) ((Environment.rigid_congr same).mp renamedRigid)
              distinct.of_cons unassigned
              (binds.grounded grounded (List.forall_mem_singleton.mpr free)))

end Inhabit
