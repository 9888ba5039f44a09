import Inhabit.Program.Basic
import Inhabit.Proofs.Naming.Arguments
import Inhabit.Proofs.Unification.Erasure

/-! The simply typed terms over a scope, and a list of them.

Types are compared without refinements and names of arguments. The list follows the way in
which a search builds terms: an application takes a function that still awaits one argument
more. -/

namespace Inhabit

/-! ## Arities -/

namespace TypeTerm

def arity : TypeTerm → Nat
  | .node .function [_, result] => result.arity + 1
  | _ => 0

@[simp] theorem arity_function (argument result : TypeTerm) :
    (node .function [argument, result]).arity = result.arity + 1 := by
  rw [arity]

def arrows (arguments : List TypeTerm) (result : TypeTerm) : TypeTerm :=
  arguments.foldr (fun argument rest => .node .function [argument, rest]) result

@[simp] theorem arrows_nil (result : TypeTerm) : arrows [] result = result := rfl

@[simp] theorem arrows_cons (argument : TypeTerm) (rest : List TypeTerm)
    (result : TypeTerm) :
    arrows (argument :: rest) result = .node .function [argument, arrows rest result] := rfl

@[simp] theorem arity_arrows (arguments : List TypeTerm) (result : TypeTerm) :
    (arrows arguments result).arity = arguments.length + result.arity := by
  induction arguments with
  | nil => exact (Nat.zero_add _).symm
  | cons argument rest induction =>
      rw [arrows_cons, arity_function, induction, List.length_cons]
      omega

open Classical in
/-- The first arguments of a function, if they take it to the result. -/
noncomputable def argumentsTo? (result : TypeTerm) : (count : Nat) → TypeTerm →
    Option (List TypeTerm)
  | 0, t => if t = result then some [] else none
  | count + 1, .node .function [argument, rest] =>
      (argumentsTo? result count rest).map (argument :: ·)
  | _ + 1, _ => none

theorem argumentsTo?_eq_some {result : TypeTerm} {count : Nat} {t : TypeTerm}
    {arguments : List TypeTerm} :
    argumentsTo? result count t = some arguments ↔
      arguments.length = count ∧ t = arrows arguments result := by
  fun_induction argumentsTo? result count t generalizing arguments with
  | case1 | case2 => simp_all [List.length_eq_zero_iff, eq_comm]
  | case3 count argument rest induction =>
      rw [Option.map_eq_some_iff]
      constructor
      · rintro ⟨others, inner, rfl⟩
        rcases induction.mp inner with ⟨length, rfl⟩
        exact ⟨congrArg (· + 1) length, rfl⟩
      · rintro ⟨length, whole⟩
        cases arguments with
        | nil => cases length
        | cons first others =>
            cases whole
            exact ⟨others, induction.mpr ⟨Nat.succ_inj.mp length, rfl⟩, rfl⟩
  | case4 t _ notFunction =>
      refine ⟨nofun, ?_⟩
      rintro ⟨length, rfl⟩
      cases arguments with
      | nil => cases length
      | cons argument rest => exact absurd rfl (notFunction argument (arrows rest result))

end TypeTerm

theorem Skeleton.arity_toTerm (t : Skeleton ρ) : t.toTerm.arity = t.arity := by
  induction t using Skeleton.arity.induct with
  | case1 base arguments refinement =>
      have scalar : ∀ (symbol : BaseType) (ts : List TypeTerm),
          (TypeTerm.node (.scalar symbol) ts).arity = 0 := fun _ _ => by
        simp [TypeTerm.arity]
      cases arguments with
      | nil => cases base <;> simp [toTerm, scalar, arity, TypeTerm.arity]
      | cons head rest => rw [toTerm_scalar_cons, scalar, arity]
  | case2 name argument result induction =>
      rw [toTerm_function, TypeTerm.arity_function, induction, arity]

/-! ## Terms -/

inductive ApplicativeTerm where
  | symbol (name : String)
  | app (function argument : ApplicativeTerm)
  deriving DecidableEq, Repr

def ApplicativeTerm.height : ApplicativeTerm → Nat
  | .symbol _ => 0
  | .app function argument => max function.height argument.height + 1

def Program.applicative? : Program → Option ApplicativeTerm
  | .symbol name _ => some (.symbol name)
  | .app function argument _ =>
      (applicative? function).bind fun first => (applicative? argument).map (.app first)
  | _ => none
termination_by structural program => program

/-- The symbol has the type in the scope, not only an instance of it. -/
def Environment.Declares (env : Environment) (name : String) (type : RefinedType) : Prop :=
  ∃ arity, (env.symbolsOfArity arity).find? name = some (.mono type)

inductive HasType (env : Environment) : ApplicativeTerm → TypeTerm → Prop where
  | symbol {name : String} {type : RefinedType} (declared : env.Declares name type) :
      HasType env (.symbol name) type.toTerm
  | app {function argument : ApplicativeTerm} {expected result : TypeTerm}
      (first : HasType env function (.node .function [expected, result]))
      (second : HasType env argument expected) :
      HasType env (.app function argument) result

/-- No symbol of the scope is polymorphic, the types have no type variables but those that
the scope binds, and none of these looks like one that is drawn. -/
structure Environment.Monomorphic (env : Environment) : Prop where
  mono : ∀ arity name schema, (env.symbolsOfArity arity).find? name = some schema →
    ∃ type, schema = .mono type ∧ type.arity = arity ∧ env.Rigid type
  undrawn : ∀ number : Nat, env.isBound (Stem.typeVar ++ toString number) = false

namespace Environment

variable {env : Environment}

theorem le_maxArity {arity : Nat} {name : String} {schema : Schema}
    (found : (env.symbolsOfArity arity).find? name = some schema) : arity ≤ env.maxArity := by
  have below (numbers : List Nat) (start : Nat) :
      start ≤ numbers.foldl max start ∧ ∀ number ∈ numbers, number ≤ numbers.foldl max start := by
    induction numbers generalizing start with
    | nil => exact ⟨le_rfl, nofun⟩
    | cons head rest induction =>
        have inRest := induction (max start head)
        refine ⟨(le_max_left _ _).trans inRest.1, List.forall_mem_cons.mpr ⟨?_, inRest.2⟩⟩
        exact (le_max_right _ _).trans inRest.1
  apply (below _ 0).2
  obtain ⟨symbols, listed, entry⟩ := exists_mem_symbols_of_find? found
  have occupied : (!symbols.isEmpty) = true := by
    rw [SortedMap.isEmpty, Bool.not_eq_true', List.isEmpty_eq_false_iff]
    exact List.ne_nil_of_mem entry
  exact List.mem_map.mpr ⟨_, List.mem_filter.mpr ⟨listed, occupied⟩, rfl⟩

theorem Monomorphic.arity_le_maxArity (plain : env.Monomorphic) {term : ApplicativeTerm}
    {t : TypeTerm} (typed : HasType env term t) : t.arity ≤ env.maxArity := by
  induction typed with
  | @symbol name type declared =>
      rcases declared with ⟨arity, found⟩
      rcases plain.mono arity name _ found with ⟨_, equal, rightArity, _⟩
      cases equal
      rw [Skeleton.arity_toTerm, rightArity]
      exact le_maxArity found
  | app _ _ first _ =>
      rw [TypeTerm.arity_function] at first
      exact (Nat.le_succ _).trans first

/-! ## Their list -/

noncomputable def symbolsTo (env : Environment) (count : Nat) (result : TypeTerm) :
    List (ApplicativeTerm × List TypeTerm) :=
  (env.symbolsOfArity (count + result.arity)).entries.filterMap fun (name, schema) =>
    (TypeTerm.argumentsTo? result count schema.body.toTerm).map (.symbol name, ·)

/-- What a function makes of the terms that are listed for its first argument. -/
def applicationsOf (listed : TypeTerm → List (ApplicativeTerm × List TypeTerm)) :
    ApplicativeTerm × List TypeTerm → List (ApplicativeTerm × List TypeTerm)
  | (function, expected :: rest) =>
      (listed expected).map fun entry => (.app function entry.1, rest)
  | (_, []) => []

/-- The terms of bounded height that take so many arguments to the result, with the types
of these. -/
noncomputable def termsTo (env : Environment) : (depth count : Nat) → (result : TypeTerm) →
    List (ApplicativeTerm × List TypeTerm)
  | 0, count, result => env.symbolsTo count result
  | depth + 1, count, result =>
      env.symbolsTo count result ++
        if count + result.arity = env.maxArity then []
        else (env.termsTo depth (count + 1) result).flatMap
          (applicationsOf (env.termsTo depth 0))

section List

variable {depth count : Nat} {result : TypeTerm} {term : ApplicativeTerm}
  {arguments : List TypeTerm}

theorem mem_applicationsOf {listed : TypeTerm → List (ApplicativeTerm × List TypeTerm)}
    {entry : ApplicativeTerm × List TypeTerm} :
    (term, arguments) ∈ applicationsOf listed entry ↔
      ∃ expected argument, entry.2 = expected :: arguments ∧
        argument ∈ (listed expected).map Prod.fst ∧ term = .app entry.1 argument := by
  rcases entry with ⟨function, _ | ⟨expected, rest⟩⟩
  · simp [applicationsOf]
  · simp only [applicationsOf, List.mem_map, Prod.mk.injEq, List.cons.injEq]
    constructor
    · rintro ⟨argument, member, rfl, rfl⟩
      exact ⟨expected, argument.1, ⟨rfl, rfl⟩, ⟨argument, member, rfl⟩, rfl⟩
    · rintro ⟨_, _, ⟨rfl, rfl⟩, ⟨argument, member, rfl⟩, rfl⟩
      exact ⟨argument, member, rfl, rfl⟩

theorem Monomorphic.mem_symbolsTo (plain : env.Monomorphic) :
    (term, arguments) ∈ env.symbolsTo count result ↔
      arguments.length = count ∧ HasType env term (.arrows arguments result) ∧
        term.height = 0 := by
  unfold symbolsTo
  rw [List.mem_filterMap]
  constructor
  · rintro ⟨⟨name, schema⟩, listed, equal⟩
    rcases Option.map_eq_some_iff.mp equal with ⟨_, split, same⟩
    cases same
    rcases plain.mono _ name schema (SortedMap.find?_of_mem_entries listed) with
      ⟨type, rfl, _, _⟩
    rcases TypeTerm.argumentsTo?_eq_some.mp split with ⟨length, whole⟩
    refine ⟨length, ?_, rfl⟩
    rw [← whole]
    exact .symbol ⟨_, SortedMap.find?_of_mem_entries listed⟩
  · rintro ⟨length, typed, flat⟩
    generalize whole : TypeTerm.arrows arguments result = t at typed
    cases typed with
    | app => cases flat
    | @symbol name type declared =>
        rcases declared with ⟨arity, found⟩
        rcases plain.mono arity name _ found with ⟨_, equal, rightArity, _⟩
        cases equal
        have isArity : arity = count + result.arity := by
          rw [← rightArity, ← Skeleton.arity_toTerm, ← whole, TypeTerm.arity_arrows, length]
        refine ⟨(name, .mono type), ?_, ?_⟩
        · exact isArity ▸ SortedMap.mem_entries_of_find? found
        · exact Option.map_eq_some_iff.mpr
            ⟨arguments, TypeTerm.argumentsTo?_eq_some.mpr ⟨length, whole.symm⟩, rfl⟩

/-- Nothing is missed by passing over functions of more arguments than any symbol has. -/
theorem Monomorphic.mem_termsTo (plain : env.Monomorphic) :
    (term, arguments) ∈ env.termsTo depth count result ↔
      arguments.length = count ∧ HasType env term (.arrows arguments result) ∧
        term.height ≤ depth := by
  induction depth generalizing count result term arguments with
  | zero =>
      rw [termsTo, plain.mem_symbolsTo, Nat.le_zero]
  | succ depth induction =>
      rw [termsTo, List.mem_append, plain.mem_symbolsTo]
      constructor
      · rintro (⟨length, typed, flat⟩ | isApplication)
        · exact ⟨length, typed, flat.trans_le (Nat.zero_le _)⟩
        · split at isApplication
          · cases isApplication
          · rcases List.mem_flatMap.mp isApplication with ⟨⟨function, types⟩, listed, inside⟩
            rcases mem_applicationsOf.mp inside with ⟨expected, argument, rfl, member, rfl⟩
            rcases List.mem_map.mp member with ⟨⟨_, none⟩, argumentListed, rfl⟩
            rcases induction.mp listed with ⟨length, first, firstLow⟩
            rcases induction.mp argumentListed with ⟨noneLength, second, secondLow⟩
            rw [List.length_eq_zero_iff] at noneLength
            subst noneLength
            exact ⟨Nat.succ_inj.mp length, .app first second,
              Nat.succ_le_succ (max_le firstLow secondLow)⟩
      · rintro ⟨length, typed, low⟩
        generalize whole : TypeTerm.arrows arguments result = t at typed
        cases typed with
        | symbol declared => exact .inl ⟨length, whole ▸ .symbol declared, rfl⟩
        | @app function argument expected _ first second =>
            subst whole
            -- The function takes one argument more than the application, which some symbol does.
            have within := plain.arity_le_maxArity first
            rw [TypeTerm.arity_function, TypeTerm.arity_arrows, length] at within
            have heights := max_le_iff.mp (Nat.le_of_succ_le_succ low)
            have functionListed : (function, expected :: arguments) ∈
                env.termsTo depth (count + 1) result :=
              induction.mpr ⟨congrArg (· + 1) length, first, heights.1⟩
            have argumentListed : (argument, []) ∈ env.termsTo depth 0 expected :=
              induction.mpr ⟨rfl, second, heights.2⟩
            rw [if_neg (by omega)]
            exact .inr (List.mem_flatMap.mpr ⟨_, functionListed, mem_applicationsOf.mpr
              ⟨expected, argument, rfl, List.mem_map_of_mem argumentListed, rfl⟩⟩)

theorem nodup_symbolsTo (env : Environment) (count : Nat) (result : TypeTerm) :
    ((env.symbolsTo count result).map Prod.fst).Nodup := by
  rw [List.Nodup, List.pairwise_map, symbolsTo, List.pairwise_filterMap]
  refine (env.symbolsOfArity _).increasing.imp ?_
  rintro ⟨first, firstSchema⟩ ⟨second, secondSchema⟩ before entry isFirst other isSecond
  rcases Option.map_eq_some_iff.mp isFirst with ⟨_, _, rfl⟩
  rcases Option.map_eq_some_iff.mp isSecond with ⟨_, _, rfl⟩
  intro same
  cases same
  rw [Std.ReflOrd.compare_self] at before
  cases before

theorem exists_symbol_of_mem_symbolsTo
    (member : term ∈ (env.symbolsTo count result).map Prod.fst) :
    ∃ name, term = .symbol name := by
  rcases List.mem_map.mp member with ⟨entry, listed, rfl⟩
  rcases List.mem_filterMap.mp listed with ⟨⟨name, schema⟩, _, equal⟩
  rcases Option.map_eq_some_iff.mp equal with ⟨_, _, rfl⟩
  exact ⟨name, rfl⟩

theorem exists_app_of_mem_applicationsOf
    {listed : TypeTerm → List (ApplicativeTerm × List TypeTerm)}
    {entry : ApplicativeTerm × List TypeTerm}
    (member : term ∈ (applicationsOf listed entry).map Prod.fst) :
    ∃ argument, term = .app entry.1 argument := by
  rcases List.mem_map.mp member with ⟨⟨_, _⟩, inside, rfl⟩
  rcases mem_applicationsOf.mp inside with ⟨_, argument, _, _, equal⟩
  exact ⟨argument, equal⟩

theorem nodup_applicationsOf {listed : TypeTerm → List (ApplicativeTerm × List TypeTerm)}
    (once : ∀ t, ((listed t).map Prod.fst).Nodup) (entry : ApplicativeTerm × List TypeTerm) :
    ((applicationsOf listed entry).map Prod.fst).Nodup := by
  rcases entry with ⟨function, _ | ⟨expected, rest⟩⟩
  · exact .nil
  · have injective : Function.Injective (ApplicativeTerm.app function) :=
      fun _ _ equal => (ApplicativeTerm.app.inj equal).2
    have mapped := (once expected).map injective
    simpa [applicationsOf, Function.comp_def] using mapped

theorem nodup_termsTo (env : Environment) (depth count : Nat) (result : TypeTerm) :
    ((env.termsTo depth count result).map Prod.fst).Nodup := by
  induction depth generalizing count result with
  | zero => exact nodup_symbolsTo env count result
  | succ depth induction =>
      rw [termsTo, List.map_append, List.nodup_append]
      refine ⟨nodup_symbolsTo env count result, ?_, ?_⟩
      · split
        · exact .nil
        · rw [List.map_flatMap, List.nodup_flatMap]
          refine ⟨fun entry _ => nodup_applicationsOf (induction 0) entry, ?_⟩
          apply (List.pairwise_map.mp (induction (count + 1) result)).imp
          intro first second different term inFirst inSecond
          rcases exists_app_of_mem_applicationsOf inFirst with ⟨_, rfl⟩
          rcases exists_app_of_mem_applicationsOf inSecond with ⟨_, equal⟩
          exact different (ApplicativeTerm.app.inj equal).1
      · rintro term isSymbol other isApplication rfl
        rcases exists_symbol_of_mem_symbolsTo isSymbol with ⟨name, rfl⟩
        split at isApplication
        · cases isApplication
        · rw [List.map_flatMap, List.mem_flatMap] at isApplication
          rcases isApplication with ⟨entry, _, inside⟩
          rcases exists_app_of_mem_applicationsOf inside with ⟨_, equal⟩
          cases equal

end List

end Environment

end Inhabit
