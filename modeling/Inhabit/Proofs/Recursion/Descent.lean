import Inhabit.Proofs.Naming.Types
import Inhabit.Proofs.Validity.Connectives
import Inhabit.Search.RecursiveCalls
import Mathlib

/-! Recursive calls descend.

The sizes of the well-founded arguments of a call are compared with those of the arguments
that the function itself was given. At the position that a call is for they get smaller, and
before that position they stay the same. The arguments of a call are bound one after the
other, and some of them take the names that the function has for its own. -/

namespace Inhabit

/-! ## Strengthened refinements -/

namespace Formula

section Substitute

variable (name other : String) (own : LogicSort)

theorem substituteVar_var_self (sort : LogicSort) :
    (var sort name).substituteVar name (var own other) = var own other := by
  rw [substituteVar, substitute, find?_singleton, if_pos rfl]
  rfl

theorem substituteVar_var_of_ne {name caller : String} (different : caller ≠ name)
    (sort : LogicSort) :
    (var sort caller).substituteVar name (var own other) = var sort caller := by
  rw [substituteVar, substitute, find?_singleton, if_neg different]
  rfl

theorem literal_substituteVar (f : Formula) :
    (f.substituteVar name (var own other)).isTrue = f.isTrue ∧
      (f.substituteVar name (var own other)).isFalse = f.isFalse := by
  cases f with
  | var sort occurring =>
      by_cases same : occurring = name
      · subst same
        rw [substituteVar_var_self]
        exact ⟨rfl, rfl⟩
      · rw [substituteVar_var_of_ne _ _ same]
        exact ⟨rfl, rfl⟩
  | bool | int | unknown | unary | binary | ite | measure => exact ⟨rfl, rfl⟩

theorem substituteVar_and (left right : Formula) :
    (left.and right).substituteVar name (var own other) =
      (left.substituteVar name (var own other)).and
        (right.substituteVar name (var own other)) := by
  have first := literal_substituteVar name other own left
  have second := literal_substituteVar name other own right
  unfold Formula.and
  rw [first.1, first.2, second.1, second.2]
  split
  · rfl
  · split
    · rfl
    · rfl

end Substitute

theorem holds_binary {values : Formula → Int} {op : BinaryOp} {left right : Formula}
    {first second : Int} (leftValue : left.evaluate values = .ok first)
    (rightValue : right.evaluate values = .ok second) :
    (binary op left right).Holds values ↔ op.apply first second ≠ 0 := by
  unfold Holds
  rw [evaluate, leftValue, rightValue]
  constructor
  · rintro ⟨_, equal, nonzero⟩
    exact Except.ok.inj equal ▸ nonzero
  · exact fun nonzero => ⟨_, rfl, nonzero⟩

theorem ofTruth_ne_zero {holds : Bool} : ofTruth holds ≠ 0 ↔ holds = true := by
  cases holds <;> decide

end Formula

namespace Environment

/-! ## Sizes -/

/-- The term for the size of an argument, if its type has a well-founded order: a number
itself, or what the metric of a datatype says of its value. -/
def size? (env : Environment) (name : String) : RefinedType → Option Formula
  | .scalar .int _ _ => some (.var .int name)
  | .scalar (.data datatype) _ _ =>
      (env.metric? datatype).map fun metric =>
        .measure .int metric (.var (.data datatype) name)
  | _ => none

def sizes (env : Environment) (t : RefinedType) : List Formula :=
  t.parameters.filterMap fun parameter => env.size? parameter.1 parameter.2

theorem sizes_function (env : Environment) (name : String) (argument result : RefinedType) :
    env.sizes (.function name argument result) =
      (env.size? name argument).toList ++ env.sizes result := by
  unfold sizes
  rw [Skeleton.parameters, List.filterMap_cons]
  cases env.size? name argument <;> rfl

theorem variableOccurrences_size? {env : Environment} {name : String} {t : RefinedType}
    {size : Formula} (sized : env.size? name t = some size) :
    size.variableOccurrences = [name] := by
  unfold size? at sized
  split at sized
  · cases sized
    rfl
  · rcases Option.map_eq_some_iff.mp sized with ⟨_, _, rfl⟩
    rfl
  · cases sized

theorem size?_congr {env : Environment} {t other : RefinedType} (same : t.base? = other.base?)
    (name : String) : env.size? name t = env.size? name other := by
  cases t with
  | scalar base arguments refinement =>
      cases other with
      | scalar =>
          cases same
          cases base <;> rfl
      | function => cases same
  | function =>
      cases other with
      | scalar => cases same
      | function => rfl

/-- The types of an argument that is smaller than the one with the name, and of one of the
same size. -/
structure Strengthens (env : Environment) (name : String) (t smaller equal : RefinedType) :
    Prop where
  smallerBase : smaller.base? = t.base?
  equalBase : equal.base? = t.base?
  less : ∀ formal, ∃ small large,
    env.size? formal t = some small ∧ env.size? name t = some large ∧
      ∀ values, (factAbout formal smaller).Holds values → values small < values large ∧
        ((∃ number, small = .var .int number) → 0 ≤ values small)
  same : ∀ formal, ∃ small large,
    env.size? formal t = some small ∧ env.size? name t = some large ∧
      ∀ values, (factAbout formal equal).Holds values → values small = values large

open Formula

theorem compare_of_holds {base : BaseType} {name formal : String} (notValue : name ≠ valueName)
    {size : String → Formula}
    (renamed : ∀ x, (size x).substituteVar valueName (.var base.sort formal) =
      size (if x = valueName then formal else x))
    {values : Formula → Int} (told : ∀ x, (size x).evaluate values = .ok (values (size x)))
    {op : BinaryOp} {arguments : List RefinedType} {refinement : Formula}
    (holds : (factAbout formal (.scalar base arguments
      (refinement.and (.binary op (size valueName) (size name))))).Holds values) :
    (factAbout formal (.scalar base arguments refinement)).Holds values ∧
      op.apply (values (size formal)) (values (size name)) ≠ 0 := by
  rw [factAbout, substituteVar_and, holds_and] at holds
  refine ⟨holds.1, (holds_binary (told formal) (told name)).mp ?_⟩
  have compared := holds.2
  change (Formula.binary op ((size valueName).substituteVar valueName _)
    ((size name).substituteVar valueName _)).Holds values at compared
  rwa [renamed, renamed, if_pos rfl, if_neg notValue] at compared

theorem strengthens_int (env : Environment) {name : String} (notValue : name ≠ valueName)
    (arguments : List RefinedType) (refinement : Formula) :
    env.Strengthens name (.scalar .int arguments refinement)
      (.scalar .int arguments ((refinement.and ((value .int).atLeast (.int 0))).and
        ((value .int).lessThan (.var .int name))))
      (.scalar .int arguments (refinement.and ((value .int).equals (.var .int name)))) := by
  have renamed (formal x : String) :
      (Formula.var .int x).substituteVar valueName (.var BaseType.int.sort formal) =
        .var .int (if x = valueName then formal else x) := by
    split
    case isTrue same => rw [same, substituteVar_var_self]; rfl
    case isFalse different => rw [substituteVar_var_of_ne _ _ different]
  refine ⟨rfl, rfl, fun formal => ⟨_, _, rfl, rfl, fun values holds => ?_⟩,
    fun formal => ⟨_, _, rfl, rfl, fun values holds => ?_⟩⟩
  · rcases compare_of_holds notValue (renamed formal) (fun _ => rfl) holds with ⟨first, less⟩
    refine ⟨of_decide_eq_true (ofTruth_ne_zero.mp less), fun _ => ?_⟩
    rw [factAbout, substituteVar_and, holds_and] at first
    have atLeast := first.2
    change (Formula.binary .ge ((Formula.var .int valueName).substituteVar valueName _)
      (.int 0)).Holds values at atLeast
    rw [renamed, if_pos rfl, holds_binary rfl rfl] at atLeast
    exact of_decide_eq_true (ofTruth_ne_zero.mp atLeast)
  · rcases compare_of_holds notValue (renamed formal) (fun _ => rfl) holds with ⟨_, same⟩
    exact eq_of_beq (ofTruth_ne_zero.mp same)

theorem strengthens_data {env : Environment} {name : String} (notValue : name ≠ valueName)
    {datatype metric : String} (declared : env.metric? datatype = some metric)
    (arguments : List RefinedType) (refinement : Formula) :
    let size (x : String) := Formula.measure .int metric (.var (.data datatype) x)
    env.Strengthens name (.scalar (.data datatype) arguments refinement)
      (.scalar (.data datatype) arguments
        (refinement.and ((size valueName).lessThan (size name))))
      (.scalar (.data datatype) arguments
        (refinement.and ((size valueName).equals (size name)))) := by
  intro size
  have sized (x : String) (refinement : Formula) :
      env.size? x (.scalar (.data datatype) arguments refinement) = some (size x) := by
    rw [size?, declared]
    rfl
  have renamed (formal x : String) :
      (size x).substituteVar valueName (.var (BaseType.data datatype).sort formal) =
        size (if x = valueName then formal else x) := by
    apply congrArg (Formula.measure .int metric)
    split
    case isTrue same => rw [same]; exact substituteVar_var_self _ _ _ _
    case isFalse different => exact substituteVar_var_of_ne _ _ different _
  refine ⟨rfl, rfl, fun formal => ⟨_, _, sized _ _, sized _ _, fun values holds => ?_⟩,
    fun formal => ⟨_, _, sized _ _, sized _ _, fun values holds => ?_⟩⟩
  · rcases compare_of_holds notValue (renamed formal) (fun _ => rfl) holds with ⟨_, less⟩
    exact ⟨of_decide_eq_true (ofTruth_ne_zero.mp less), fun ⟨_, isVariable⟩ => nomatch isVariable⟩
  · rcases compare_of_holds notValue (renamed formal) (fun _ => rfl) holds with ⟨_, same⟩
    exact eq_of_beq (ofTruth_ne_zero.mp same)

theorem decreasing_cases (env : Environment) {name : String} (notValue : name ≠ valueName)
    (t : RefinedType) :
    (env.decreasing name t = none ∧ ∀ x, env.size? x t = none) ∨
      ∃ smaller equal, env.decreasing name t = some (smaller, equal) ∧
        env.Strengthens name t smaller equal := by
  cases t with
  | function => exact .inl ⟨rfl, fun _ => rfl⟩
  | scalar base arguments refinement =>
      cases base with
      | bool | typeVar => exact .inl ⟨rfl, fun _ => rfl⟩
      | int => exact .inr ⟨_, _, rfl, env.strengthens_int notValue arguments refinement⟩
      | data datatype =>
          cases declared : env.metric? datatype with
          | none =>
              refine .inl ⟨?_, fun x => ?_⟩
              · rw [decreasing, declared]
                rfl
              · rw [size?, declared]
                rfl
          | some metric =>
              refine .inr ⟨_, _, ?_, strengthens_data notValue declared arguments refinement⟩
              rw [decreasing, declared]
              rfl

end Environment

/-! ## Arguments -/

namespace RefinedType

/-- The arguments of a function are bound to their names one after the other. Each satisfies
its refinement, and only changes what is said of its name. -/
def Receives : RefinedType → (before after : Formula → Int) → Prop
  | .scalar _ _ _, before, after => after = before
  | .function name argument result, before, after => ∃ bound : Formula → Int,
      (∀ term, name ∉ term.variableOccurrences → bound term = before term) ∧
        (Environment.factAbout name argument).Holds bound ∧ Receives result bound after
termination_by structural t => t

theorem Receives.agree {t : RefinedType} {before after : Formula → Int}
    (receives : t.Receives before after) {term : Formula}
    (absent : ∀ name ∈ t.parameters.map Prod.fst, name ∉ term.variableOccurrences) :
    after term = before term := by
  induction t using Skeleton.arity.induct generalizing before with
  | case1 => exact congrFun receives term
  | case2 name argument result induction =>
      rcases receives with ⟨bound, unchanged, _, rest⟩
      rcases List.forall_mem_cons.mp absent with ⟨first, others⟩
      exact (induction rest others).trans (unchanged term first)

theorem Receives.eq_of_size? {env : Environment} {t own : RefinedType}
    {before after : Formula → Int} (receives : t.Receives before after) {name : String}
    {size : Formula} (sized : env.size? name own = some size)
    (apart : ∀ other ∈ t.parameters.map Prod.fst, other ≠ name) : after size = before size := by
  apply receives.agree
  intro other member
  rw [Environment.variableOccurrences_size? sized, List.mem_singleton]
  exact apart other member

end RefinedType

namespace Environment

variable {env : Environment} {t : RefinedType} {bound before : Formula → Int} {formal : String}
  (unchanged : ∀ term, formal ∉ term.variableOccurrences → bound term = before term)

include unchanged

theorem eq_of_size? {name : String} {size : Formula} (sized : env.size? name t = some size)
    (apart : name ≠ formal) : bound size = before size := by
  apply unchanged
  rw [variableOccurrences_size? sized, List.mem_singleton]
  exact apart.symm

theorem eq_of_mem_sizes (apart : ∀ name ∈ t.parameters.map Prod.fst, name ≠ formal) :
    ∀ size ∈ env.sizes t, bound size = before size := by
  intro size member
  rcases List.mem_filterMap.mp member with ⟨parameter, inside, sized⟩
  exact eq_of_size? unchanged sized (apart parameter.1 (List.mem_map_of_mem inside))

end Environment

/-- The sizes of the arguments after the call, compared with those before it: at the index
they are smaller, and a number is not negative, and at earlier ones they are the same. -/
structure Environment.Descends (env : Environment) (callee caller : RefinedType) (index : Nat)
    (before after : Formula → Int) : Prop where
  less : ∃ small large, (env.sizes callee)[index]? = some small ∧
    (env.sizes caller)[index]? = some large ∧ after small < before large ∧
      ((∃ number, small = .var .int number) → 0 ≤ after small)
  same : ∀ earlier < index, (env.sizes callee)[earlier]?.map after =
    (env.sizes caller)[earlier]?.map before

namespace Environment.Descends

variable {env : Environment} {callee caller : RefinedType} {index : Nat}
  {before after : Formula → Int}

theorem lex (descends : env.Descends callee caller index before after) :
    List.Lex (· < ·) ((env.sizes callee).map after) ((env.sizes caller).map before) := by
  rcases descends with ⟨⟨small, large, foundSmall, foundLarge, less, _⟩, same⟩
  generalize env.sizes callee = smalls at *
  generalize env.sizes caller = larges at *
  induction index generalizing smalls larges with
  | zero =>
      cases smalls with
      | nil => cases foundSmall
      | cons =>
          cases larges with
          | nil => cases foundLarge
          | cons =>
              cases foundSmall
              cases foundLarge
              exact .rel less
  | succ index induction =>
      cases smalls with
      | nil => cases foundSmall
      | cons =>
          cases larges with
          | nil => cases foundLarge
          | cons =>
              have first := Option.some_inj.mp (same 0 (Nat.succ_pos index))
              rw [List.map_cons, List.map_cons, first]
              apply List.Lex.cons
              apply induction _ foundSmall _ foundLarge
              exact fun earlier before => same (earlier + 1) (Nat.succ_lt_succ before)

theorem congr (descends : env.Descends callee caller index before after)
    {t other : RefinedType} {start : Formula → Int} (calleeSizes : env.sizes t = env.sizes callee)
    (callerSizes : env.sizes other = env.sizes caller)
    (unchanged : ∀ size ∈ env.sizes caller, before size = start size) :
    env.Descends t other index start after := by
  rcases descends with ⟨⟨small, large, foundSmall, foundLarge, less, number⟩, same⟩
  rw [← calleeSizes] at foundSmall
  constructor
  · refine ⟨small, large, foundSmall, callerSizes ▸ foundLarge, ?_, number⟩
    rwa [← unchanged large (List.mem_of_getElem? foundLarge)]
  · intro earlier before
    rw [calleeSizes, callerSizes, same earlier before]
    cases found : (env.sizes caller)[earlier]? with
    | none => rfl
    | some size => exact congrArg some (unchanged size (List.mem_of_getElem? found))

theorem cons (descends : env.Descends callee caller index before after)
    {t other : RefinedType} {small large : Formula}
    (calleeSizes : env.sizes t = small :: env.sizes callee)
    (callerSizes : env.sizes other = large :: env.sizes caller)
    (equal : after small = before large) :
    env.Descends t other (index + 1) before after := by
  constructor
  · rw [calleeSizes, callerSizes]
    exact descends.less
  · intro earlier isEarlier
    rw [calleeSizes, callerSizes]
    cases earlier with
    | zero => exact congrArg some equal
    | succ earlier => exact descends.same earlier (Nat.lt_of_succ_lt_succ isEarlier)

end Environment.Descends

/-! ## Recursive calls -/

section Calls

variable {env : Environment} {strategy : FixpointStrategy}

theorem RefinedType.base?_substitute (substitution : Substitution) (t : RefinedType) :
    Skeleton.base? (t.substitute substitution) = t.base? := by
  cases t <;> rfl

def RefinedType.bases (t : RefinedType) : List (Option BaseType) :=
  t.parameters.map fun parameter => parameter.2.base?

theorem RefinedType.bases_substitute (substitution : Substitution) (t : RefinedType) :
    bases (t.substitute substitution) = t.bases := by
  induction t using Skeleton.arity.induct generalizing substitution with
  | case1 => rfl
  | case2 name argument result induction =>
      exact congrArg₂ List.cons (base?_substitute substitution argument) (induction _)

theorem RefinedType.bases_renameVar (t : RefinedType) (old new : String)
    (oldType : RefinedType) : bases (t.renameVar old new oldType) = t.bases := by
  cases oldType with
  | scalar => exact bases_substitute _ t
  | function => rfl

theorem Environment.sizes_substitute (substitution : Substitution) (t : RefinedType) :
    env.sizes (t.substitute substitution) = env.sizes t := by
  induction t using Skeleton.arity.induct generalizing substitution with
  | case1 => rfl
  | case2 name argument result induction =>
      rw [RefinedType.substitute, sizes_function, sizes_function, induction,
        size?_congr (RefinedType.base?_substitute substitution argument)]

theorem Environment.sizes_renameVar (t : RefinedType) (old new : String)
    (oldType : RefinedType) : env.sizes (t.renameVar old new oldType) = env.sizes t := by
  cases oldType with
  | scalar => exact sizes_substitute _ t
  | function => rfl

theorem recursion_induction {motive : RefinedType → NameSupply → Prop}
    (scalar : ∀ base arguments refinement supply,
      motive (.scalar base arguments refinement) supply)
    (function : ∀ name argument result (supply : NameSupply),
      motive (RefinedType.renameVar result name (Stem.argument ++ toString supply.issued)
        argument) ⟨supply.issued + 1⟩ → motive (.function name argument result) supply)
    (t : RefinedType) (supply : NameSupply) : motive t supply := by
  generalize count : t.arity = arity
  induction arity generalizing t supply with
  | zero =>
      cases t with
      | scalar => exact scalar _ _ _ supply
      | function => cases count
  | succ arity induction =>
      cases t with
      | scalar => cases count
      | function name argument result =>
          apply function
          apply induction
          rw [RefinedType.arity_renameVar]
          exact Nat.succ.inj count

section Run

variable {name : String} {argument result : RefinedType} {supply : NameSupply}

theorem run_recursiveCalls_of_none (none : env.decreasing name argument = none) :
    let formal := Stem.argument ++ toString supply.issued
    let renamed := RefinedType.renameVar result name formal argument
    ((recursiveCalls env strategy (.function name argument result)).run supply).1 =
      ((recursiveCalls env strategy renamed).run ⟨supply.issued + 1⟩).1.map
        fun call => (call.1, .function formal argument call.2) := by
  intro formal renamed
  unfold recursiveCalls
  rw [Skeleton.arity, RefinedType.arity_renameVar]
  simp only [recursiveCallsWithin, none]
  rfl

theorem run_recursiveCalls_of_some {smaller equal : RefinedType}
    (some : env.decreasing name argument = some (smaller, equal)) :
    let formal := Stem.argument ++ toString supply.issued
    let renamed := RefinedType.renameVar result name formal argument
    let later := (recursiveCalls env strategy renamed).run ⟨supply.issued + 1⟩
    let here := (Stem.recursiveCall ++ toString later.2.issued,
      Skeleton.function formal smaller renamed)
    ((recursiveCalls env strategy (.function name argument result)).run supply).1 =
      match strategy with
      | .disabled => []
      | .firstArgument => [here]
      | .allArguments =>
          here :: later.1.map fun call => (call.1, .function formal equal call.2) := by
  intro formal renamed later here
  unfold here later recursiveCalls
  rw [Skeleton.arity, RefinedType.arity_renameVar]
  simp only [recursiveCallsWithin, some]
  cases strategy <;> rfl

/-- The calls of a function are one for its first argument, if it has a size, and those of
the rest in which the first argument is renamed. -/
theorem getElem?_recursiveCalls {index : Nat} {call : String × RefinedType}
    (listed : ((recursiveCalls env strategy (.function name argument result)).run
      supply).1[index]? = some call) :
    let formal := Stem.argument ++ toString supply.issued
    let renamed := RefinedType.renameVar result name formal argument
    let later := ((recursiveCalls env strategy renamed).run ⟨supply.issued + 1⟩).1
    (env.decreasing name argument = none ∧ ∃ inner, later[index]? = some inner ∧
        call.2 = .function formal argument inner.2) ∨
      ∃ smaller equal, env.decreasing name argument = some (smaller, equal) ∧
        (index = 0 ∧ call.2 = .function formal smaller renamed ∨
          ∃ next inner, index = next + 1 ∧ later[next]? = some inner ∧
            call.2 = .function formal equal inner.2) := by
  intro formal renamed later
  cases decreases : env.decreasing name argument with
  | none =>
      rw [run_recursiveCalls_of_none decreases, List.getElem?_map, Option.map_eq_some_iff]
        at listed
      rcases listed with ⟨inner, inLater, rfl⟩
      exact .inl ⟨rfl, inner, inLater, rfl⟩
  | some both =>
      rcases both with ⟨smaller, equal⟩
      rw [run_recursiveCalls_of_some decreases] at listed
      right
      apply Exists.intro smaller
      apply Exists.intro equal
      apply And.intro rfl
      cases strategy with
      | disabled => cases listed
      | firstArgument =>
          cases index with
          | zero =>
              cases listed
              exact .inl ⟨rfl, rfl⟩
          | succ => cases listed
      | allArguments =>
          cases index with
          | zero =>
              cases listed
              exact .inl ⟨rfl, rfl⟩
          | succ next =>
              rw [List.getElem?_cons_succ, List.getElem?_map, Option.map_eq_some_iff] at listed
              rcases listed with ⟨inner, inLater, rfl⟩
              exact .inr ⟨next, inner, rfl, inLater, rfl⟩

theorem recursiveCalls_cases (notValue : name ≠ valueName) {index : Nat}
    {call : String × RefinedType}
    (listed : ((recursiveCalls env strategy (.function name argument result)).run
      supply).1[index]? = some call) :
    let formal := Stem.argument ++ toString supply.issued
    let renamed := RefinedType.renameVar result name formal argument
    let later := ((recursiveCalls env strategy renamed).run ⟨supply.issued + 1⟩).1
    (∃ inner, (∀ x, env.size? x argument = none) ∧ later[index]? = some inner ∧
        call.2 = .function formal argument inner.2) ∨
      ∃ smaller equal, env.Strengthens name argument smaller equal ∧
        (index = 0 ∧ call.2 = .function formal smaller renamed ∨
          ∃ next inner, index = next + 1 ∧ later[next]? = some inner ∧
            call.2 = .function formal equal inner.2) := by
  rcases getElem?_recursiveCalls listed with
    ⟨none, inner, inLater, same⟩ | ⟨smaller, equal, some, either⟩
  · rcases env.decreasing_cases notValue argument with ⟨_, noSize⟩ | ⟨_, _, some, _⟩
    · exact .inl ⟨inner, noSize, inLater, same⟩
    · rw [none] at some
      cases some
  · rcases env.decreasing_cases notValue argument with ⟨none, _⟩ | ⟨_, _, others, strengthens⟩
    · rw [none] at some
      cases some
    · rw [some] at others
      cases others
      exact .inr ⟨smaller, equal, strengthens, either⟩

end Run

/-- For how many of so many well-founded arguments there are recursive calls. -/
def FixpointStrategy.calls : FixpointStrategy → (arguments : Nat) → Nat
  | .disabled, _ => 0
  | .firstArgument, arguments => min arguments 1
  | .allArguments, arguments => arguments

section Names

variable {t : RefinedType} {supply : NameSupply}
  (notValue : ∀ name ∈ t.parameters.map Prod.fst, name ≠ valueName)

include notValue

theorem length_recursiveCalls :
    ((recursiveCalls env strategy t).run supply).1.length =
      strategy.calls (env.sizes t).length := by
  induction t, supply using recursion_induction with
  | scalar => cases strategy <;> rfl
  | function name argument result supply induction =>
      rcases List.forall_mem_cons.mp notValue with ⟨first, others⟩
      have later := induction (by rwa [RefinedType.names_renameVar])
      rw [Environment.sizes_renameVar] at later
      rw [Environment.sizes_function]
      rcases env.decreasing_cases first argument with
        ⟨none, noSize⟩ | ⟨smaller, equal, some, strengthens⟩
      · rw [run_recursiveCalls_of_none none, List.length_map, later, noSize]
        rfl
      · rcases strengthens.less name with ⟨_, size, _, sized, _⟩
        rw [run_recursiveCalls_of_some some, sized]
        cases strategy with
        | disabled => rfl
        | firstArgument => exact (Nat.min_eq_right (Nat.succ_le_succ (Nat.zero_le _))).symm
        | allArguments => exact congrArg (· + 1) ((List.length_map _).trans later)

/-- The type has the arguments of the other, under the same names or under those that are
drawn from the supply. -/
structure RefinedType.Resembles (supply : NameSupply) (t other : RefinedType) : Prop where
  bases : t.bases = other.bases
  names : ∀ name ∈ t.parameters.map Prod.fst, name ∈ other.parameters.map Prod.fst ∨
    ∃ number, supply.issued ≤ number ∧ name = Stem.argument ++ toString number

omit notValue in
theorem RefinedType.Resembles.ne_formal {other : RefinedType}
    (resembles : t.Resembles ⟨supply.issued + 1⟩ other)
    (apart : ∀ name ∈ other.parameters.map Prod.fst, ∀ number : Nat,
      name ≠ Stem.argument ++ toString number) :
    ∀ name ∈ t.parameters.map Prod.fst, name ≠ Stem.argument ++ toString supply.issued := by
  intro name member
  rcases resembles.names name member with old | ⟨number, late, rfl⟩
  · exact apart name old _
  · intro same
    exact absurd (NameSupply.numbered_injective same ▸ late) (Nat.not_succ_le_self _)

theorem resembles_recursiveCalls {index : Nat} {call : String × RefinedType}
    (listed : ((recursiveCalls env strategy t).run supply).1[index]? = some call) :
    call.2.Resembles supply t := by
  induction t, supply using recursion_induction generalizing index call with
  | scalar => cases listed
  | function name argument result supply induction =>
      let formal := Stem.argument ++ toString supply.issued
      let renamed := RefinedType.renameVar result name formal argument
      rcases List.forall_mem_cons.mp notValue with ⟨first, others⟩
      have extended {own rest : RefinedType} (base : own.base? = argument.base?)
          (resembles : rest.Resembles ⟨supply.issued + 1⟩ renamed) :
          RefinedType.Resembles supply (.function formal own rest)
            (.function name argument result) := by
        refine ⟨congrArg₂ List.cons base ?_, List.forall_mem_cons.mpr ⟨?_, ?_⟩⟩
        · exact resembles.bases.trans (RefinedType.bases_renameVar result name formal argument)
        · exact .inr ⟨supply.issued, le_rfl, rfl⟩
        · intro other member
          rcases resembles.names other member with old | ⟨number, late, equal⟩
          · rw [RefinedType.names_renameVar] at old
            exact .inl (List.mem_cons_of_mem _ old)
          · exact .inr ⟨number, (Nat.le_succ _).trans late, equal⟩
      have later := @induction (by rwa [RefinedType.names_renameVar])
      rcases recursiveCalls_cases first listed with ⟨inner, _, inLater, shape⟩ |
        ⟨smaller, equal, strengthens, ⟨_, shape⟩ | ⟨next, inner, _, inLater, shape⟩⟩
      · exact shape ▸ extended rfl (later inLater)
      · exact shape ▸ extended strengthens.smallerBase ⟨rfl, fun _ => .inl⟩
      · exact shape ▸ extended strengthens.equalBase (later inLater)

theorem descends_recursiveCalls
    (notFormal : ∀ name ∈ t.parameters.map Prod.fst, ∀ number : Nat,
      name ≠ Stem.argument ++ toString number) {index : Nat} {call : String × RefinedType}
    (listed : ((recursiveCalls env strategy t).run supply).1[index]? = some call)
    {before after : Formula → Int} (receives : call.2.Receives before after) :
    env.Descends call.2 t index before after := by
  induction t, supply using recursion_induction generalizing index call before with
  | scalar => cases listed
  | function name argument result supply induction =>
      let formal := Stem.argument ++ toString supply.issued
      let renamed := RefinedType.renameVar result name formal argument
      have names : renamed.parameters.map Prod.fst = result.parameters.map Prod.fst :=
        RefinedType.names_renameVar result name formal argument
      have sizes : env.sizes renamed = env.sizes result :=
        Environment.sizes_renameVar result name formal argument
      rcases List.forall_mem_cons.mp notValue with ⟨first, others⟩
      rcases List.forall_mem_cons.mp notFormal with ⟨apart, othersApart⟩
      rw [← names] at others othersApart
      have later := @induction others othersApart
      rcases recursiveCalls_cases first listed with ⟨inner, noSize, inLater, shape⟩ |
        ⟨smaller, equal, strengthens, ⟨rfl, shape⟩ | ⟨next, inner, rfl, inLater, shape⟩⟩
      all_goals
        rw [shape] at receives ⊢
        rcases receives with ⟨bound, unchanged, holds, rest⟩
        -- Naming the first argument leaves the sizes of those of the function alone.
        have kept : ∀ size ∈ env.sizes renamed, bound size = before size :=
          Environment.eq_of_mem_sizes unchanged fun name member => othersApart name member _
      -- This argument has no size.
      · apply (later inLater rest).congr _ _ kept
        · rw [Environment.sizes_function, noSize]
          rfl
        · rw [Environment.sizes_function, noSize, sizes]
          rfl
      -- The call is for this argument, which gets smaller.
      · rcases strengthens.less formal with ⟨small, large, sizedSmall, sizedLarge, told⟩
        rcases told bound holds with ⟨less, number⟩
        have smallSettled := rest.eq_of_size? sizedSmall fun name member =>
          othersApart name member _
        have largeKept := Environment.eq_of_size? unchanged sizedLarge (apart _)
        refine ⟨⟨small, large, ?_, ?_, ?_, ?_⟩, fun _ => nofun⟩
        · rw [Environment.sizes_function, Environment.size?_congr strengthens.smallerBase,
            sizedSmall]
          rfl
        · rw [Environment.sizes_function, sizedLarge]
          rfl
        · rwa [smallSettled, ← largeKept]
        · rwa [smallSettled]
      -- The call is for a later argument, and this one keeps its size.
      · rcases strengthens.same formal with ⟨small, large, sizedSmall, sizedLarge, told⟩
        have resembles := resembles_recursiveCalls others inLater
        have smallSettled := rest.eq_of_size? sizedSmall (resembles.ne_formal othersApart)
        have largeKept := Environment.eq_of_size? unchanged sizedLarge (apart _)
        have descends := (later inLater rest).congr rfl rfl kept
        apply descends.cons _ _ ((smallSettled.trans (told bound holds)).trans largeKept)
        · rw [Environment.sizes_function, Environment.size?_congr strengthens.equalBase,
            sizedSmall]
          rfl
        · rw [Environment.sizes_function, sizedLarge, sizes]
          rfl

end Names

end Calls

/-- There are as many recursive calls as the strategy promises, one for each well-founded
argument from the first one on. Whatever arguments one of them takes, their sizes come
before those of the function's own arguments in the lexicographic order: the sizes of the
arguments that the call is not for stay the same up to the one that it is for, which gets
smaller. -/
theorem recursive_calls_descend (env : Environment) (strategy : FixpointStrategy)
    {t : RefinedType} (supply : NameSupply)
    (proper : ∀ name ∈ t.parameters.map Prod.fst, name ≠ valueName ∧
      ∀ number : Nat, name ≠ Stem.argument ++ toString number) :
    let calls := ((recursiveCalls env strategy t).run supply).1
    calls.length = strategy.calls (env.sizes t).length ∧
      ∀ index call, calls[index]? = some call → call.2.bases = t.bases ∧
        ∀ before after, call.2.Receives before after →
          env.Descends call.2 t index before after ∧
            List.Lex (· < ·) ((env.sizes call.2).map after) ((env.sizes t).map before) := by
  intro calls
  have notValue := fun name member => (proper name member).1
  refine ⟨length_recursiveCalls notValue, fun index call listed => ?_⟩
  refine ⟨(resembles_recursiveCalls notValue listed).bases, fun before after receives => ?_⟩
  have descends := descends_recursiveCalls notValue (fun name member => (proper name member).2)
    listed receives
  exact ⟨descends, descends.lex⟩

section Take

def lengthScope : Environment :=
  (∅ : Environment).addDatatype "List" ⟨[], ["Nil", "Cons"], some "len"⟩

def takeType : RefinedType :=
  .function "n" (.atom .int .top)
    (.function "b" (.atom .bool .top)
      (.function "xs" (.atom (.data "List") .top) (.atom (.data "List") .top)))

/-- One list is longer than what else there is. -/
def longList : Formula → Int
  | .measure _ "len" (.var _ "xs") => 1
  | _ => 0

private theorem takeType_proper : ∀ name ∈ takeType.parameters.map Prod.fst,
    name ≠ valueName ∧ ∀ number : Nat, name ≠ Stem.argument ++ toString number := by
  have letters : ∀ name ∈ takeType.parameters.map Prod.fst,
      name.toList.head? ≠ some '_' := by
    decide
  intro name member
  constructor
  · rintro rfl
    exact letters _ member rfl
  · rintro number rfl
    apply letters _ member
    simp [Stem.argument, String.toList_append]

/-- The second call keeps the number, and takes a shorter list. -/
theorem take_descends : ∃ call,
    ((recursiveCalls lengthScope .allArguments takeType).run {}).1[1]? = some call ∧
      call.2.Receives longList longList ∧
        lengthScope.Descends call.2 takeType 1 longList longList := by
  have receives : RefinedType.Receives
      (.function "_x0" (.atom .int ((Formula.value .int).equals (.var .int "n")))
        (.function "_x1" (.atom .bool .top)
          (.function "_x2" (.atom (.data "List")
            ((Formula.measure .int "len" (.value (.data "List"))).lessThan
              (.measure .int "len" (.var (.data "List") "xs"))))
            (.atom (.data "List") .top)))) longList longList :=
    ⟨_, fun _ _ => rfl, ⟨1, rfl, by decide⟩, _, fun _ _ => rfl, ⟨1, rfl, by decide⟩,
      _, fun _ _ => rfl, ⟨1, rfl, by decide⟩, rfl⟩
  have facts := recursive_calls_descend lengthScope .allArguments {} takeType_proper
  exact ⟨("_f3", _), rfl, receives, ((facts.2 1 ("_f3", _) rfl).2 _ _ receives).1⟩

end Take

end Inhabit
