import Inhabit.Proofs.Naming.Formals
import Inhabit.Proofs.Naming.FreeVariables
import Inhabit.Proofs.Recursion.Descent

/-! The signatures of recursive calls.

A call takes the arguments of the function under names of its own up to the argument that it
makes smaller, and under those of the function from there on. Up to that argument their types
say how large they are, compared with the arguments that the function itself was given. -/

namespace Inhabit

open Skeleton

namespace RefinedType

variable {name : String} {names : List String}

/-! ## Other names for the first arguments -/

/-- Call the first arguments otherwise, one after the other, and rename them in the rest. -/
def withFormals : (names : List String) → RefinedType → RefinedType
  | new :: rest, .function name argument result =>
      .function new argument (withFormals rest (renameVar result name new argument))
  | _, t => t

theorem withFormals_nil (t : RefinedType) : t.withFormals [] = t := by
  cases t <;> rfl

theorem formals_withFormals {t : RefinedType} (enough : names.length ≤ t.arity) :
    (t.withFormals names).formals = names ++ t.formals.drop names.length := by
  induction names generalizing t with
  | nil => rw [withFormals_nil]; rfl
  | cons new rest induction =>
      cases t with
      | scalar => exact absurd enough (Nat.not_succ_le_zero _)
      | function name argument result =>
          have fewer : rest.length ≤ (renameVar result name new argument).arity := by
            rw [arity_renameVar]
            exact Nat.le_of_succ_le_succ enough
          rw [withFormals, formals_function, induction fewer, formals_renameVar,
            formals_function]
          rfl

def HasFunction (t : RefinedType) (name : String) : Prop :=
  ∃ argument, (name, argument) ∈ t.parameters ∧ argument.isFunction = true

theorem hasFunction_function {parameter : String} {argument result : RefinedType} :
    HasFunction (.function parameter argument result) name ↔
      (name = parameter ∧ argument.isFunction = true) ∨ result.HasFunction name := by
  simp only [HasFunction, parameters, List.mem_cons, Prod.mk.injEq]
  constructor
  · rintro ⟨other, ⟨same, rfl⟩ | inside, isFunction⟩
    · exact .inl ⟨same, isFunction⟩
    · exact .inr ⟨other, inside, isFunction⟩
  · rintro (⟨same, isFunction⟩ | ⟨other, inside, isFunction⟩)
    · exact ⟨argument, .inl ⟨same, rfl⟩, isFunction⟩
    · exact ⟨other, .inr inside, isFunction⟩

theorem hasFunction_substitute (substitution : Substitution) (t : RefinedType) :
    (t.substitute substitution).HasFunction name ↔ t.HasFunction name := by
  induction t using arity.induct generalizing substitution with
  | case1 base arguments refinement => simp [HasFunction, substitute, parameters]
  | case2 parameter argument result induction =>
      have kept : isFunction (RefinedType.substitute substitution argument) =
          argument.isFunction := by
        cases argument <;> rfl
      rw [substitute, hasFunction_function, hasFunction_function, kept, induction]

theorem hasFunction_renameVar (t : RefinedType) (old new : String) (oldType : RefinedType) :
    (t.renameVar old new oldType).HasFunction name ↔ t.HasFunction name := by
  cases oldType with
  | scalar => exact hasFunction_substitute _ t
  | function => exact .rfl

theorem of_mem_freeVars_withFormals {t : RefinedType}
    (member : name ∈ (t.withFormals names).freeVars) :
    name ∈ names ∨ name ∈ t.freeVars ∨ t.HasFunction name := by
  induction names generalizing t with
  | nil => exact .inr (.inl (withFormals_nil t ▸ member))
  | cons new rest induction =>
      cases t with
      | scalar => exact .inr (.inl member)
      | function parameter argument result =>
          rw [withFormals, mem_freeVars_function] at member
          rw [mem_freeVars_function, hasFunction_function]
          rcases member with inArgument | ⟨inRest, _⟩
          · exact .inr (.inl (.inl inArgument))
          · rcases induction inRest with given | free | isFunction
            · exact .inl (List.mem_cons_of_mem _ given)
            · rcases of_mem_freeVars_renameVar free with rfl | ⟨inResult, kept⟩
              · exact .inl List.mem_cons_self
              · by_cases same : name = parameter
                · exact .inr (.inr (.inl ⟨same, kept same⟩))
                · exact .inr (.inl (.inr ⟨inResult, same⟩))
            · rw [hasFunction_renameVar] at isFunction
              exact .inr (.inr (.inr isFunction))

end RefinedType

/-! ## Strengthened arguments -/

/-- In the signature the argument at the position is smaller than the one of the function,
and those before it are as large, where they have a size. The rest is as in the plain type.
The arguments of the function are called by the names. -/
inductive Environment.Narrows (env : Environment) :
    (position : Nat) → (names : List String) → (plain signature : RefinedType) → Prop
  | smaller {name : String} {names : List String} {formal : String}
      {argument smaller equal result : RefinedType}
      (decreases : env.decreasing name argument = some (smaller, equal)) :
      Narrows env 0 (name :: names) (.function formal argument result)
        (.function formal smaller result)
  | equal {name : String} {names : List String} {formal : String} {position : Nat}
      {argument smaller equal plain signature : RefinedType}
      (decreases : env.decreasing name argument = some (smaller, equal))
      (later : Narrows env position names plain signature) :
      Narrows env (position + 1) (name :: names) (.function formal argument plain)
        (.function formal equal signature)
  | unordered {name : String} {names : List String} {formal : String} {position : Nat}
      {argument plain signature : RefinedType} (none : env.decreasing name argument = none)
      (later : Narrows env position names plain signature) :
      Narrows env (position + 1) (name :: names) (.function formal argument plain)
        (.function formal argument signature)

theorem Environment.Narrows.formals {env : Environment} {position : Nat} {names : List String}
    {plain signature : RefinedType} (narrows : env.Narrows position names plain signature) :
    signature.formals = plain.formals := by
  induction narrows with
  | smaller => rfl
  | equal _ _ induction | unordered _ _ induction =>
      rw [RefinedType.formals_function, RefinedType.formals_function, induction]

/-! ## Calls -/

def NameSupply.formals (supply : NameSupply) (count : Nat) : List String :=
  (List.range count).map fun number => Stem.argument ++ toString (supply.issued + number)

theorem NameSupply.formals_succ (supply : NameSupply) (count : Nat) :
    supply.formals (count + 1) =
      (Stem.argument ++ toString supply.issued) ::
        NameSupply.formals ⟨supply.issued + 1⟩ count := by
  simp only [NameSupply.formals, List.range_succ_eq_map, List.map_cons, List.map_map,
    Nat.add_zero]
  congr 1
  apply List.map_congr_left
  intro number _
  simp only [Function.comp, Nat.succ_eq_add_one]
  congr 2
  omega

theorem NameSupply.length_formals (supply : NameSupply) (count : Nat) :
    (supply.formals count).length = count := by
  rw [NameSupply.formals, List.length_map, List.length_range]

theorem NameSupply.nodup_formals (supply : NameSupply) (count : Nat) :
    (supply.formals count).Nodup := by
  apply List.Nodup.map _ List.nodup_range
  intro first second same
  have := NameSupply.numbered_injective same
  omega

section Calls

variable {env : Environment} {strategy : FixpointStrategy}

theorem mem_recursiveCalls_function {name : String} {argument result : RefinedType}
    {supply : NameSupply} {call : String × RefinedType}
    (member : call ∈
      ((recursiveCalls env strategy (.function name argument result)).run supply).1) :
    let formal := Stem.argument ++ toString supply.issued
    let renamed := RefinedType.renameVar result name formal argument
    let later := ((recursiveCalls env strategy renamed).run ⟨supply.issued + 1⟩).1
    (env.decreasing name argument = none ∧
      ∃ inner ∈ later, call.2 = .function formal argument inner.2) ∨
      ∃ smaller equal, env.decreasing name argument = some (smaller, equal) ∧
        (call.2 = .function formal smaller renamed ∨
          ∃ inner ∈ later, call.2 = .function formal equal inner.2) := by
  intro formal renamed later
  rcases List.mem_iff_getElem?.mp member with ⟨index, listed⟩
  rcases getElem?_recursiveCalls listed with
    ⟨none, inner, inLater, same⟩ | ⟨smaller, equal, some, ⟨_, same⟩ | ⟨_, inner, _, inLater, same⟩⟩
  · exact .inl ⟨none, inner, List.mem_of_getElem? inLater, same⟩
  · exact .inr ⟨smaller, equal, some, .inl same⟩
  · exact .inr ⟨smaller, equal, some, .inr ⟨inner, List.mem_of_getElem? inLater, same⟩⟩

theorem exists_narrows_of_mem {t : RefinedType} {supply : NameSupply}
    {call : String × RefinedType}
    (member : call ∈ ((recursiveCalls env strategy t).run supply).1) :
    ∃ position < t.arity,
      env.Narrows position t.formals (t.withFormals (supply.formals (position + 1))) call.2 := by
  induction t, supply using recursion_induction generalizing call with
  | scalar => cases member
  | function name argument result supply induction =>
      have arity : (RefinedType.renameVar result name
          (Stem.argument ++ toString supply.issued) argument).arity = result.arity :=
        RefinedType.arity_renameVar _ _ _ _
      have later (inner : String × RefinedType) (inLater : inner ∈ _) := @induction inner inLater
      rw [RefinedType.formals_renameVar, arity] at later
      rw [Skeleton.arity, RefinedType.formals_function]
      rcases mem_recursiveCalls_function member with
        ⟨none, inner, inLater, shape⟩ | ⟨smaller, equal, decreases, shape | ⟨inner, inLater, shape⟩⟩
      · rcases later inner inLater with ⟨position, below, narrows⟩
        refine ⟨position + 1, Nat.succ_lt_succ below, ?_⟩
        rw [shape, NameSupply.formals_succ]
        exact .unordered none narrows
      · refine ⟨0, Nat.succ_pos _, ?_⟩
        have renamed : RefinedType.withFormals (supply.formals (0 + 1))
            (.function name argument result) = .function _ argument _ :=
          congrArg (Skeleton.function _ argument) (RefinedType.withFormals_nil _)
        rw [shape, renamed]
        exact .smaller decreases
      · rcases later inner inLater with ⟨position, below, narrows⟩
        refine ⟨position + 1, Nat.succ_lt_succ below, ?_⟩
        rw [shape, NameSupply.formals_succ]
        exact .equal decreases narrows

theorem issued_recursiveCalls (t : RefinedType) (supply : NameSupply) :
    supply.issued + t.arity ≤ ((recursiveCalls env strategy t).run supply).2.issued := by
  induction t, supply using recursion_induction with
  | scalar => exact le_rfl
  | function name argument result supply induction =>
      rw [RefinedType.arity_renameVar] at induction
      refine le_trans ?_ (induction.trans ?_)
      · exact (Nat.add_right_comm supply.issued 1 result.arity).ge
      · unfold recursiveCalls
        rw [Skeleton.arity, RefinedType.arity_renameVar]
        cases decreases : env.decreasing name argument with
        | none =>
            simp only [recursiveCallsWithin, decreases]
            exact le_rfl
        | some both =>
            simp only [recursiveCallsWithin, decreases]
            cases strategy <;> exact Nat.le_succ _

end Calls

/-- Each recursive call makes one argument smaller. Up to it the arguments get names that are
drawn for them, and the later ones keep theirs, so that all names are drawn exactly if it is
the last argument that gets smaller. Apart from what is said of sizes, no name of an argument
of the function is free in the signature, unless it has been free in the type of the function
or is that of a function. -/
theorem recursive_calls_rename_to_smaller (env : Environment) (strategy : FixpointStrategy)
    (t : RefinedType) (supply : NameSupply)
    (unused : ∀ number, supply.issued ≤ number →
      Stem.argument ++ toString number ∉ t.formals) :
    let drawn := (recursiveCalls env strategy t).run supply
    supply.issued + t.arity ≤ drawn.2.issued ∧
      ∀ call ∈ drawn.1, ∃ position < t.arity,
        let fresh := supply.formals (position + 1)
        call.2.arity = t.arity ∧ call.2.formals = fresh ++ t.formals.drop (position + 1) ∧
        (fresh.Nodup ∧ ∀ name ∈ fresh, name ∉ t.formals) ∧
        (t.formals.Nodup → call.2.formals.Nodup) ∧
        ((∀ name ∈ call.2.formals, name ∉ t.formals) ↔ position + 1 = t.arity) ∧
        env.Narrows position t.formals (t.withFormals fresh) call.2 ∧
        ∀ name ∈ t.formals, name ∈ (t.withFormals fresh).freeVars →
          name ∈ t.freeVars ∨ t.HasFunction name := by
  intro drawn
  refine ⟨issued_recursiveCalls t supply, fun call member => ?_⟩
  rcases exists_narrows_of_mem member with ⟨position, below, narrows⟩
  refine ⟨position, below, ?_⟩
  intro fresh
  have length : fresh.length = position + 1 := supply.length_formals _
  -- The names up to the position are drawn, and those after it kept.
  have apart : ∀ name ∈ fresh, name ∉ t.formals := by
    intro name isFresh
    rcases List.mem_map.mp isFresh with ⟨number, _, rfl⟩
    exact unused _ (Nat.le_add_right _ _)
  have formals : call.2.formals = fresh ++ t.formals.drop (position + 1) := by
    rw [narrows.formals, RefinedType.formals_withFormals (length.trans_le below), length]
  have arity (t : RefinedType) : t.formals.length = t.arity := by
    rw [Skeleton.formals, List.length_map, length_parameters]
  have kept : ∀ name ∈ t.formals.drop (position + 1), name ∈ t.formals :=
    fun _ => List.mem_of_mem_drop
  refine ⟨?_, formals, ⟨supply.nodup_formals _, apart⟩, ?_, ?_, narrows, ?_⟩
  · rw [← arity, formals, List.length_append, List.length_drop, length, arity]
    omega
  · intro distinct
    rw [formals]
    apply List.Nodup.append (supply.nodup_formals _) (distinct.sublist (List.drop_sublist _ _))
    exact fun name isFresh isKept => apart name isFresh (kept name isKept)
  · rw [formals]
    constructor
    · intro allDrawn
      have none : t.formals.drop (position + 1) = [] := by
        apply List.eq_nil_iff_forall_not_mem.mpr
        exact fun name isKept =>
          allDrawn name (List.mem_append_right _ isKept) (kept name isKept)
      rw [List.drop_eq_nil_iff, arity] at none
      exact Nat.le_antisymm below none
    · intro isLast
      rw [List.drop_eq_nil_of_le (by rw [arity, isLast]), List.append_nil]
      exact apart
  · intro name isFormal free
    exact (RefinedType.of_mem_freeVars_withFormals free).resolve_left
      fun isFresh => apart name isFresh isFormal

section Below

/-- A function that takes a number and another one that is no greater, and gives a third. -/
def descendingType : RefinedType :=
  let atMost (name : String) : RefinedType :=
    .atom .int (.binary .le (.value .int) (.var .int name))
  .function "n" (.atom .int .top) (.function "m" (atMost "n") (atMost "m"))

/-- Both numbers get names of their own where the second one gets smaller. -/
theorem descendingType_renamed :
    let calls := ((recursiveCalls ∅ .allArguments descendingType).run {}).1
    (∀ number : Nat, 0 ≤ number → Stem.argument ++ toString number ∉ descendingType.formals) ∧
      calls.map (fun call => (call.1, call.2.formals)) =
        [("_f3", ["_x0", "m"]), ("_f2", ["_x0", "_x1"])] ∧
      ∀ call ∈ calls, call.2.arity = 2 ∧ call.2.formals.Nodup := by
  intro calls
  have unused (number : Nat) (_ : 0 ≤ number) :
      Stem.argument ++ toString number ∉ descendingType.formals := by
    have letters : ∀ name ∈ descendingType.formals, name.toList.head? ≠ some '_' := by decide
    intro member
    apply letters _ member
    simp [Stem.argument, String.toList_append]
  refine ⟨unused, by rfl, fun call member => ?_⟩
  rcases (recursive_calls_rename_to_smaller ∅ .allArguments descendingType {} unused).2 call
    member with ⟨position, _, arity, _, _, distinct, _⟩
  exact ⟨arity, distinct (by decide)⟩

/-- The call that makes the first number smaller has its second argument under the name that
it has in the function. -/
theorem descendingType_keeps_name : ∃ call,
    ((recursiveCalls ∅ .firstArgument descendingType).run {}).1 = [call] ∧
      call.2.formals = ["_x0", "m"] ∧ descendingType.formals = ["n", "m"] ∧
      descendingType.formals.Nodup ∧ ¬∀ name ∈ call.2.formals, name ∉ descendingType.formals :=
  ⟨_, rfl, rfl, rfl, by decide, by decide⟩

end Below

end Inhabit
