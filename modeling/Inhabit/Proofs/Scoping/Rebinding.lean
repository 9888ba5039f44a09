import Inhabit.Proofs.Faults.Constructors
import Inhabit.Proofs.Scoping.Extensions
import Mathlib.Data.List.Induction

/-! Symbols that are bound more than once.

A binding takes the place of an older one of the same arity only. One of another arity stays
beside it, and of all these the one of least arity is looked up. What has been declared a
constant once remains one. -/

namespace Inhabit

theorem SortedMap.findSome?_values_eq_some_iff [Ord κ] [Std.TransOrd κ] [Std.LawfulEqOrd κ]
    {map : SortedMap κ α} {choose : α → Option β} {result : β} :
    map.values.findSome? choose = some result ↔
      ∃ key value, map.find? key = some value ∧ choose value = some result ∧
        ∀ other earlier, map.find? other = some earlier → compare other key = .lt →
          choose earlier = none := by
  rw [values, List.findSome?_map, List.findSome?_eq_some_iff]
  constructor
  · rintro ⟨before, ⟨key, value⟩, after, split, chosen, none⟩
    have increasing := map.increasing
    rw [split] at increasing
    rcases List.pairwise_append.mp increasing with ⟨_, fromKey, _⟩
    have above := (List.pairwise_cons.mp fromKey).1
    refine ⟨key, value, find?_of_mem_entries (by simp [split]), chosen, ?_⟩
    intro other earlier found less
    have member := mem_entries_of_find? found
    rw [split, List.mem_append, List.mem_cons] at member
    rcases member with isBefore | same | isAfter
    · exact none _ isBefore
    · cases same
      rw [Std.ReflOrd.compare_self] at less
      cases less
    · have greater := Std.OrientedCmp.gt_of_lt (above _ isAfter)
      rw [less] at greater
      cases greater
  · rintro ⟨key, value, found, chosen, none⟩
    rcases List.mem_iff_append.mp (mem_entries_of_find? found) with ⟨before, after, split⟩
    refine ⟨before, (key, value), after, split, chosen, ?_⟩
    intro entry member
    have increasing := map.increasing
    rw [split] at increasing
    have less := (List.pairwise_append.mp increasing).2.2 entry member _ List.mem_cons_self
    exact none entry.1 entry.2 (find?_of_mem_entries (by simp [split, member])) less

inductive Binding where
  | variable (name : String) (type : RefinedType)
  | symbol (name : String) (schema : Schema)
  | constant (name : String) (schema : Schema)
  deriving DecidableEq

namespace Binding

def name : Binding → String
  | .variable name _ | .symbol name _ | .constant name _ => name

def schema : Binding → Schema
  | .variable _ type => .mono type
  | .symbol _ schema | .constant _ schema => schema

def arity (binding : Binding) : Nat := binding.schema.arity

def isConstant : Binding → Bool
  | .constant _ _ => true
  | .variable _ _ | .symbol _ _ => false

end Binding

namespace Environment

def bind (env : Environment) : Binding → Environment
  | .variable name type => env.addVariable name type
  | .symbol name schema => env.addSymbol name schema
  | .constant name schema => env.addConstant name schema

def bindAll (env : Environment) (bindings : List Binding) : Environment :=
  bindings.foldl bind env

theorem bindAll_append_singleton (env : Environment) (bindings : List Binding)
    (latest : Binding) :
    env.bindAll (bindings ++ [latest]) = (env.bindAll bindings).bind latest := by
  simp [bindAll]

/-! ## One binding -/

section Step

variable (env : Environment) (binding : Binding) (name : String)

theorem symbols_bind :
    (env.bind binding).symbols = (env.addSymbol binding.name binding.schema).symbols := by
  cases binding <;> rfl

theorem find?_bind (arity : Nat) :
    ((env.bind binding).symbolsOfArity arity).find? name =
      if binding.name = name ∧ binding.arity = arity then some binding.schema
      else (env.symbolsOfArity arity).find? name := by
  have stored : (env.bind binding).symbolsOfArity arity =
      (env.addSymbol binding.name binding.schema).symbolsOfArity arity := by
    rw [symbolsOfArity, symbols_bind, symbolsOfArity]
  rw [stored, symbolsOfArity_addSymbol, Binding.arity]
  by_cases sameArity : arity = binding.schema.arity
  · rw [if_pos sameArity, SortedMap.find?_insert]
    simp [sameArity, eq_comm]
  · rw [if_neg sameArity, if_neg fun both => sameArity both.2.symm]

theorem isConstant_bind :
    (env.bind binding).isConstant name =
      (env.isConstant name || (binding.name == name && binding.isConstant)) := by
  cases binding with
  | «variable» | symbol => simp [bind, Binding.isConstant, isConstant, addVariable, addSymbol]
  | constant other schema =>
      have stored : (env.addConstant other schema).constants = env.constants.insert other := rfl
      rw [bind, isConstant, stored, isConstant, Binding.name, Binding.isConstant, Bool.and_true,
        Bool.eq_iff_iff, SortedSet.contains_iff_mem, SortedSet.mem_insert, Bool.or_eq_true,
        SortedSet.contains_iff_mem, beq_iff_eq, or_comm, @eq_comm _ name]

theorem lookup?_bind_of_ne {name : String} (different : binding.name ≠ name) :
    (env.bind binding).lookup? name = env.lookup? name := by
  rw [lookup?, symbols_bind, ← lookup?, lookup?_addSymbol_of_ne different.symm]

end Step

/-! ## Sequences of bindings -/

def bindingsOf (name : String) (bindings : List Binding) : List Binding :=
  bindings.filter fun binding => binding.name = name

def latestAt? (arity : Nat) (bindings : List Binding) : Option Binding :=
  (bindings.filter fun binding => binding.arity = arity).getLast?

theorem latestAt?_eq_some {arity : Nat} {bindings : List Binding} {latest : Binding}
    (last : latestAt? arity bindings = some latest) :
    latest ∈ bindings ∧ latest.arity = arity := by
  have member := List.mem_of_getLast? last
  rw [List.mem_filter, decide_eq_true_eq] at member
  exact member

theorem latestAt?_isSome {arity : Nat} {bindings : List Binding} :
    (latestAt? arity bindings).isSome ↔ ∃ binding ∈ bindings, binding.arity = arity := by
  simp [latestAt?]

theorem latestAt?_arity {bindings : List Binding} {latest : Binding}
    (last : bindings.getLast? = some latest) :
    latestAt? latest.arity bindings = some latest := by
  rcases List.getLast?_eq_some_iff.mp last with ⟨earlier, rfl⟩
  simp [latestAt?]

section Sequences

variable (bindings : List Binding) (name : String)

theorem find?_bindAll (arity : Nat) :
    (((∅ : Environment).bindAll bindings).symbolsOfArity arity).find? name =
      (latestAt? arity (bindingsOf name bindings)).map Binding.schema := by
  unfold latestAt? bindingsOf
  induction bindings using List.reverseRecOn with
  | nil => rfl
  | append_singleton earlier latest induction =>
      rw [bindAll_append_singleton, find?_bind, induction, List.filter_append,
        List.filter_append]
      by_cases sameName : latest.name = name
      · by_cases sameArity : latest.arity = arity
        · simp [sameName, sameArity]
        · simp [sameName, sameArity]
      · simp [sameName]

theorem isConstant_bindAll :
    ((∅ : Environment).bindAll bindings).isConstant name =
      (bindingsOf name bindings).any Binding.isConstant := by
  rw [bindingsOf, List.any_filter]
  induction bindings using List.reverseRecOn with
  | nil => rfl
  | append_singleton earlier latest induction =>
      rw [bindAll_append_singleton, isConstant_bind, induction]
      simp [Bool.beq_eq_decide_eq]

end Sequences

theorem lookup?_eq_some_iff {env : Environment} {name : String} {schema : Schema} :
    env.lookup? name = some schema ↔
      ∃ arity, (env.symbolsOfArity arity).find? name = some schema ∧
        ∀ smaller < arity, (env.symbolsOfArity smaller).find? name = none := by
  rw [lookup?, SortedMap.findSome?_values_eq_some_iff]
  constructor
  · rintro ⟨arity, symbols, stored, found, least⟩
    refine ⟨arity, by rwa [symbolsOfArity, stored], ?_⟩
    intro smaller less
    unfold symbolsOfArity
    cases present : env.symbols.find? smaller with
    | none => rfl
    | some others => exact least smaller others present (Nat.compare_eq_lt.mpr less)
  · rintro ⟨arity, found, least⟩
    cases stored : env.symbols.find? arity with
    | none =>
        rw [symbolsOfArity, stored] at found
        cases found
    | some symbols =>
        refine ⟨arity, symbols, stored, by rwa [symbolsOfArity, stored] at found, ?_⟩
        intro smaller others present less
        have absent := least smaller (Nat.compare_eq_lt.mp less)
        rwa [symbolsOfArity, present] at absent

/-! ## The latest binding -/

section Latest

variable {bindings : List Binding} {name : String}

/-- The bindings of least arity decide, and of these the latest one. -/
theorem lookup?_bindAll_eq_some_iff {schema : Schema} :
    ((∅ : Environment).bindAll bindings).lookup? name = some schema ↔
      ∃ binding, latestAt? binding.arity (bindingsOf name bindings) = some binding ∧
        (∀ other ∈ bindingsOf name bindings, binding.arity ≤ other.arity) ∧
        binding.schema = schema := by
  rw [lookup?_eq_some_iff]
  simp only [find?_bindAll, Option.map_eq_some_iff, Option.map_eq_none_iff]
  constructor
  · rintro ⟨arity, ⟨binding, last, isSchema⟩, least⟩
    rcases latestAt?_eq_some last with ⟨_, rfl⟩
    refine ⟨binding, last, ?_, isSchema⟩
    intro other member
    by_contra less
    have found := latestAt?_isSome.mpr ⟨other, member, rfl⟩
    rw [least other.arity (Nat.lt_of_not_le less)] at found
    cases found
  · rintro ⟨binding, last, least, isSchema⟩
    refine ⟨binding.arity, ⟨binding, last, isSchema⟩, ?_⟩
    intro smaller less
    by_contra found
    rcases latestAt?_isSome.mp (Option.isSome_iff_ne_none.mpr found) with ⟨other, member, rfl⟩
    exact absurd (least other member) (Nat.not_le_of_lt less)

theorem lookup?_bindAll_eq_none_iff :
    ((∅ : Environment).bindAll bindings).lookup? name = none ↔ bindingsOf name bindings = [] := by
  constructor
  · intro absent
    by_contra some
    rcases List.exists_mem_of_ne_nil _ some with ⟨binding, member⟩
    have stored := latestAt?_isSome.mpr ⟨binding, member, rfl⟩
    rcases Option.isSome_iff_exists.mp stored with ⟨latest, last⟩
    have found := find?_bindAll bindings name binding.arity
    rw [last, Option.map_some] at found
    rcases exists_mem_symbols_of_find? found with ⟨symbols, listed, entry⟩
    have none := List.findSome?_eq_none_iff.mp absent symbols (List.mem_map_of_mem listed)
    rw [SortedMap.find?_of_mem_entries entry] at none
    cases none
  · intro none
    cases found : ((∅ : Environment).bindAll bindings).lookup? name with
    | none => rfl
    | some schema =>
        rcases lookup?_bindAll_eq_some_iff.mp found with ⟨binding, last, _⟩
        rw [none] at last
        cases last

variable {latest : Binding} (last : (bindingsOf name bindings).getLast? = some latest)

include last

theorem lookup?_bindAll_eq_latest_iff :
    ((∅ : Environment).bindAll bindings).lookup? name = some latest.schema ↔
      ∀ other ∈ bindingsOf name bindings, latest.arity ≤ other.arity := by
  rw [lookup?_bindAll_eq_some_iff]
  constructor
  · rintro ⟨binding, _, least, sameSchema⟩
    have sameArity : binding.arity = latest.arity := congrArg Schema.arity sameSchema
    exact sameArity ▸ least
  · exact fun least => ⟨latest, latestAt?_arity last, least, rfl⟩

theorem existsUnique_arity_iff :
    (∃! arity, ((((∅ : Environment).bindAll bindings).symbolsOfArity arity).find? name).isSome) ↔
      ∀ other ∈ bindingsOf name bindings, other.arity = latest.arity := by
  simp only [find?_bindAll, Option.isSome_map, latestAt?_isSome]
  have member := List.mem_of_getLast? last
  constructor
  · rintro ⟨arity, _, unique⟩ other isOther
    rw [unique other.arity ⟨other, isOther, rfl⟩, unique latest.arity ⟨latest, member, rfl⟩]
  · intro same
    refine ⟨latest.arity, ⟨latest, member, rfl⟩, ?_⟩
    rintro arity ⟨other, isOther, rfl⟩
    exact same other isOther

theorem isConstant_bindAll_eq_latest_iff :
    ((∅ : Environment).bindAll bindings).isConstant name = latest.isConstant ↔
      ∀ other ∈ bindingsOf name bindings, other.isConstant = true →
        latest.isConstant = true := by
  rw [isConstant_bindAll]
  constructor
  · intro same other isOther isConstant
    rw [← same]
    exact List.any_eq_true.mpr ⟨other, isOther, isConstant⟩
  · intro before
    apply Bool.eq_iff_iff.mpr
    rw [List.any_eq_true]
    constructor
    · rintro ⟨other, isOther, isConstant⟩
      exact before other isOther isConstant
    · exact fun isConstant => ⟨latest, List.mem_of_getLast? last, isConstant⟩

end Latest

/-- The latest binding of a symbol wins at its arity, and nothing else is replaced: older
bindings of other arities are kept, the one of least arity is looked up, and a constant
remains one. So the latest binding is looked up exactly if none has a smaller arity, the
symbol is stored once exactly if all its bindings have one arity, and it is a constant as the
latest binding has it exactly if it has not been one before. Other symbols stay as they
are. -/
theorem latest_binding_wins_at_its_arity (bindings : List Binding) (name : String) :
    let env := (∅ : Environment).bindAll bindings
    let own := bindingsOf name bindings
    (∀ arity, (env.symbolsOfArity arity).find? name =
      (latestAt? arity own).map Binding.schema) ∧
    (env.lookup? name = none ↔ own = []) ∧
    (∀ schema, env.lookup? name = some schema ↔
      ∃ binding, latestAt? binding.arity own = some binding ∧
        (∀ other ∈ own, binding.arity ≤ other.arity) ∧ binding.schema = schema) ∧
    env.isConstant name = own.any Binding.isConstant ∧
    (∀ latest, own.getLast? = some latest →
      (env.lookup? name = some latest.schema ↔ ∀ other ∈ own, latest.arity ≤ other.arity) ∧
      ((∃! arity, ((env.symbolsOfArity arity).find? name).isSome) ↔
        ∀ other ∈ own, other.arity = latest.arity) ∧
      (env.isConstant name = latest.isConstant ↔
        ∀ other ∈ own, other.isConstant = true → latest.isConstant = true)) ∧
    ∀ (scope : Environment) (binding : Binding), binding.name ≠ name →
      (∀ arity, ((scope.bind binding).symbolsOfArity arity).find? name =
        (scope.symbolsOfArity arity).find? name) ∧
      (scope.bind binding).lookup? name = scope.lookup? name ∧
      (scope.bind binding).isConstant name = scope.isConstant name := by
  intro env own
  refine ⟨find?_bindAll bindings name, lookup?_bindAll_eq_none_iff,
    fun _ => lookup?_bindAll_eq_some_iff, isConstant_bindAll bindings name, ?_, ?_⟩
  · intro latest last
    exact ⟨lookup?_bindAll_eq_latest_iff last, existsUnique_arity_iff last,
      isConstant_bindAll_eq_latest_iff last⟩
  · intro scope binding different
    refine ⟨fun arity => ?_, lookup?_bind_of_ne scope binding different, ?_⟩
    · rw [find?_bind, if_neg fun both => different both.1]
    · rw [isConstant_bind, beq_false_of_ne different, Bool.false_and, Bool.or_false]

def exactly (n : Int64) : RefinedType :=
  .atom .int ((Formula.value .int).equals (.int n))

def numberStep : RefinedType := .function "n" (.atom .int .top) (.atom .int .top)

/-- A number under a name that it shares with a function that it hides, and a function under
a name that it shares with a constant. -/
def reusedNames : List Binding :=
  [.variable "x" numberStep, .constant "y" (.mono numberStep),
    .symbol "z" (.forAll "a" (.mono numberStep)), .variable "x" (exactly 1),
    .variable "y" numberStep, .variable "x" (exactly 2)]

/-- The number is looked up, and the function is still taken for a constant. -/
theorem reusedNames_looked_up :
    let env := (∅ : Environment).bindAll reusedNames
    (bindingsOf "x" reusedNames).getLast? = some (.variable "x" (exactly 2)) ∧
      env.lookup? "x" = some (.mono (exactly 2)) ∧
      (¬∃! arity, ((env.symbolsOfArity arity).find? "x").isSome) ∧
      (bindingsOf "y" reusedNames).getLast? = some (.variable "y" numberStep) ∧
      env.lookup? "y" = some (.mono numberStep) ∧
      (∃! arity, ((env.symbolsOfArity arity).find? "y").isSome) ∧
      env.isConstant "y" = true ∧ Binding.isConstant (.variable "y" numberStep) = false := by
  intro env
  have numberLast : (bindingsOf "x" reusedNames).getLast? = some (.variable "x" (exactly 2)) := by
    decide
  have functionLast : (bindingsOf "y" reusedNames).getLast? = some (.variable "y" numberStep) := by
    decide
  rcases latest_binding_wins_at_its_arity reusedNames "x" with ⟨_, _, _, _, ofNumber, _⟩
  rcases latest_binding_wins_at_its_arity reusedNames "y" with ⟨_, _, _, constant, ofFunction, _⟩
  rcases ofNumber _ numberLast with ⟨lookedUp, once, _⟩
  rcases ofFunction _ functionLast with ⟨functionLookedUp, functionOnce, _⟩
  refine ⟨numberLast, lookedUp.mpr (by decide), fun unique => ?_, functionLast,
    functionLookedUp.mpr (by decide), functionOnce.mpr (by decide), constant.trans (by decide),
    rfl⟩
  exact absurd (once.mp unique) (by decide)

/-- A function does not take the place of a constant number that it shares its name with: the
number is looked up, both are stored, and the name remains that of a constant. -/
theorem rebound_constant_stays :
    let earlier := Binding.constant "x" (.mono (exactly 1))
    let latest := Binding.variable "x" numberStep
    let env := (∅ : Environment).bindAll [earlier, latest]
    (bindingsOf "x" [earlier, latest]).getLast? = some latest ∧
      env.lookup? "x" = some earlier.schema ∧ env.lookup? "x" ≠ some latest.schema ∧
      (env.symbolsOfArity 0).find? "x" = some earlier.schema ∧
      (env.symbolsOfArity 1).find? "x" = some latest.schema ∧
      env.isConstant "x" = true ∧ latest.isConstant = false := by
  decide

end Environment

end Inhabit
