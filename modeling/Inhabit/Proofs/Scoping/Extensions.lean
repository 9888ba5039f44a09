import Inhabit.Proofs.Scoping.ArgumentNames
import Inhabit.Proofs.Simplification.Passes
import Inhabit.Proofs.Simplification.Steps

/-! The scopes that decomposition leads to: those of the constraints it starts from,
with arguments of functions bound in them. -/

namespace Inhabit

namespace Environment

/-- A scope that arises from `base` by binding arguments with the given names. -/
inductive Binds (names : String → Prop) (base : Environment) : Environment → Prop where
  | base : Binds names base base
  | argument {env : Environment} {name : String} (type : RefinedType)
      (scope : Binds names base env) (named : names name) :
      Binds names base (env.addVariable name type)

theorem symbolsOfArity_addSymbol (env : Environment) (name : String) (schema : Schema)
    (arity : Nat) :
    (env.addSymbol name schema).symbolsOfArity arity =
      if arity = schema.arity then (env.symbolsOfArity arity).insert name schema
      else env.symbolsOfArity arity := by
  unfold addSymbol
  rw [symbolsOfArity, SortedMap.find?_insert]
  by_cases same : arity = schema.arity
  · rw [if_pos same, if_pos same, same]
    rfl
  · rw [if_neg same, if_neg same]
    rfl

theorem mem_symbolsOfArity_of_lookup? {env : Environment} {name : String} {schema : Schema}
    (found : env.lookup? name = some schema) :
    ∃ arity, (name, schema) ∈ (env.symbolsOfArity arity).entries := by
  rcases List.exists_of_findSome?_eq_some found with ⟨symbols, member, inSymbols⟩
  rcases List.mem_map.mp member with ⟨⟨arity, listed⟩, inEntries, rfl⟩
  refine ⟨arity, ?_⟩
  rw [symbolsOfArity, SortedMap.find?_of_mem_entries inEntries]
  exact SortedMap.mem_entries_of_find? inSymbols

theorem exists_mem_symbols_of_find? {env : Environment} {arity : Nat} {name : String}
    {schema : Schema} (found : (env.symbolsOfArity arity).find? name = some schema) :
    ∃ symbols, (arity, symbols) ∈ env.symbols.entries ∧ (name, schema) ∈ symbols.entries := by
  unfold symbolsOfArity at found
  cases stored : env.symbols.find? arity with
  | none =>
      rw [stored] at found
      cases found
  | some symbols =>
      rw [stored] at found
      exact ⟨symbols, SortedMap.mem_entries_of_find? stored, SortedMap.mem_entries_of_find? found⟩

theorem mem_symbolsOfArity_addVariable {env : Environment} {name : String}
    {type : RefinedType} {arity : Nat} {entry : String × Schema}
    (member : entry ∈ ((env.addVariable name type).symbolsOfArity arity).entries) :
    entry.1 = name ∨ entry ∈ (env.symbolsOfArity arity).entries := by
  rw [addVariable, symbolsOfArity_addSymbol] at member
  by_cases same : arity = (Schema.mono type).arity
  · rw [if_pos same] at member
    exact (Entries.mem_insert member).imp_left fun equal => congrArg Prod.fst equal
  · rw [if_neg same] at member
    exact .inr member

theorem mem_scalarBindings {env : Environment} {assignment : TypeAssignment}
    {binding : String × RefinedType} :
    binding ∈ env.scalarBindings assignment ↔
      ∃ type, ((binding.1, .mono type) ∈ (env.symbolsOfArity 0).entries ∨
        (binding.1, type) ∈ env.ghosts.entries) ∧
        assignment.apply type = binding.2 ∧ binding.2.isScalar = true := by
  rcases binding with ⟨name, applied⟩
  simp only [scalarBindings, List.mem_filter, List.mem_map, List.mem_append,
    List.mem_filterMap, Prod.mk.injEq]
  constructor
  · rintro ⟨⟨⟨other, type⟩, inScope, rfl, rfl⟩, isScalar⟩
    refine ⟨type, ?_, rfl, isScalar⟩
    rcases inScope with ⟨⟨symbol, schema⟩, inSymbols, isMono⟩ | inGhosts
    · cases schema with
      | forAll _ _ => cases isMono
      | mono _ =>
          cases isMono
          exact .inl inSymbols
    · exact .inr inGhosts
  · rintro ⟨type, inScope, rfl, isScalar⟩
    refine ⟨⟨(name, type), ?_, rfl, rfl⟩, isScalar⟩
    exact inScope.imp_left fun inSymbols => ⟨(name, .mono type), inSymbols, rfl⟩

theorem mem_scalarBindings_addVariable {env : Environment} {name : String}
    {type : RefinedType} {assignment : TypeAssignment} {binding : String × RefinedType}
    (member : binding ∈ (env.addVariable name type).scalarBindings assignment) :
    binding.1 = name ∨ binding ∈ env.scalarBindings assignment := by
  rcases mem_scalarBindings.mp member with ⟨bound, inScope, applied⟩
  rcases inScope with inSymbols | inGhosts
  · exact (mem_symbolsOfArity_addVariable inSymbols).imp_right fun old =>
      mem_scalarBindings.mpr ⟨bound, .inl old, applied⟩
  · exact .inr (mem_scalarBindings.mpr ⟨bound, .inr inGhosts, applied⟩)

theorem Binds.mem_scalarBindings {names : String → Prop} {base env : Environment}
    (scope : Binds names base env) {assignment : TypeAssignment}
    {binding : String × RefinedType} (member : binding ∈ env.scalarBindings assignment) :
    binding ∈ base.scalarBindings assignment ∨ names binding.1 := by
  induction scope with
  | base => exact .inl member
  | argument type _ named induction =>
      rcases mem_scalarBindings_addVariable member with equal | old
      · exact .inr (equal ▸ named)
      · exact induction old

theorem mem_scalarBindings_of_scalars {env : Environment} {assignment : TypeAssignment}
    {term : Formula} {name : String} (member : term ∈ env.scalars assignment)
    (occurs : name ∈ term.variableOccurrences) :
    ∃ type, (name, type) ∈ env.scalarBindings assignment := by
  rcases List.mem_flatMap.mp member with ⟨⟨symbol, type⟩, bound, member⟩
  suffices same : name = symbol from ⟨type, same ▸ bound⟩
  cases type with
  | function _ _ _ => cases member
  | scalar base arguments refinement =>
      cases base with
      | data datatype =>
          dsimp only [termsOf] at member
          cases metric : env.metric? datatype with
          | none =>
              rw [metric, List.mem_singleton] at member
              rw [member] at occurs
              exact List.mem_singleton.mp occurs
          | some measure =>
              rw [metric, List.mem_cons, List.mem_singleton] at member
              rcases member with equal | equal
              all_goals
                rw [equal] at occurs
                exact List.mem_singleton.mp occurs
      | bool | int | typeVar _ =>
          dsimp only [termsOf] at member
          rw [List.mem_singleton] at member
          rw [member] at occurs
          exact List.mem_singleton.mp occurs

end Environment

/-! ## Constraints within a scope -/

/-- The constraint is about a scope with arguments of the given names bound in it, and
about types that name their arguments so. -/
structure Constraint.Within (names : String → Prop) (base : Environment)
    (constraint : Constraint) : Prop where
  scope : base.Binds names constraint.env
  types : ∀ t ∈ constraint.types, ∀ name ∈ t.argumentNames, names name

def TypeAssignment.Names (names : String → Prop) (assignment : TypeAssignment) : Prop :=
  ∀ typeVar type, assignment.find? typeVar = some type →
    ∀ name ∈ type.argumentNames, names name

section Within

variable {names : String → Prop} {base : Environment}

theorem TypeAssignment.Names.apply {assignment : TypeAssignment}
    (assigned : assignment.Names names) {t : RefinedType}
    (named : ∀ name ∈ t.argumentNames, names name) :
    ∀ name ∈ (assignment.apply t).argumentNames, names name := by
  intro name member
  rcases TypeAssignment.mem_argumentNames_apply member with own | ⟨typeVar, type, found, inside⟩
  · exact named name own
  · exact assigned typeVar type found name inside

theorem TypeAssignment.Names.inherits {assignment : TypeAssignment}
    (assigned : assignment.Names names) :
    Inherits assignment fun t => ∀ name ∈ t.argumentNames, names name where
  scalarArgument _ _ _ named t member name inside := by
    apply named
    rw [Skeleton.argumentNames_scalar]
    exact List.mem_flatMap.mpr ⟨t, member, inside⟩
  scalarFewer _ _ _ named some within name inside := by
    apply named
    rw [Skeleton.argumentNames_scalar] at inside ⊢
    rcases List.mem_flatMap.mp inside with ⟨t, member, inside⟩
    exact List.mem_flatMap.mpr ⟨t, within member, inside⟩
  functionArgument _ _ _ named name inside :=
    named name (List.mem_cons_of_mem _ (List.mem_append_left _ inside))
  functionResult _ _ _ named name inside :=
    named name (List.mem_cons_of_mem _ (List.mem_append_right _ inside))
  renameVar t old new oldType named := by
    rwa [RefinedType.argumentNames_renameVar]
  apply t named := assigned.apply named

theorem Constraint.Step.parts_within {assignment : TypeAssignment}
    {constraint : Constraint} {parts : List Constraint}
    (step : constraint.Step assignment (.decompose parts))
    (assigned : assignment.Names names) (within : constraint.Within names base) :
    ∀ part ∈ parts, part.Within names base := by
  have scopes := step.parts_scope _ within.scope fun name argument _ isSide =>
    within.scope.argument argument (within.types _ isSide name List.mem_cons_self)
  exact fun part member => ⟨scopes part member,
    assigned.inherits.parts step within.types part member⟩

end Within

end Inhabit
