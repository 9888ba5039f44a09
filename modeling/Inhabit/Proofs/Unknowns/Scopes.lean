import Inhabit.Proofs.Scoping.Extensions
import Inhabit.Proofs.Unknowns.Types
import Inhabit.Search.RecursiveCalls
import Inhabit.Search.Terms

/-! The unknowns in a scope, and how the extensions of a scope act on them. -/

namespace Inhabit

structure Environment.Tidy (covers : String → Prop) (env : Environment) : Prop where
  symbols : ∀ arity, ∀ entry ∈ (env.symbolsOfArity arity).entries,
    entry.2.body.Tidy covers
  ghosts : ∀ entry ∈ env.ghosts.entries, entry.2.Tidy covers
  assumptions : ∀ f ∈ env.assumptions, f.Covered covers
  refutations : ∀ f ∈ env.refutations, f.Covered covers

namespace Environment.Tidy

variable {covers wider : String → Prop} {env : Environment}

theorem mono (tidy : env.Tidy covers)
    (widens : ∀ unknown, covers unknown → wider unknown) : env.Tidy wider where
  symbols arity entry member := (tidy.symbols arity entry member).mono widens
  ghosts entry member := (tidy.ghosts entry member).mono widens
  assumptions f member := (tidy.assumptions f member).mono widens
  refutations f member := (tidy.refutations f member).mono widens

/-! ## Extensions -/

theorem addSymbol (tidy : env.Tidy covers) (name : String) {schema : Schema}
    (body : schema.body.Tidy covers) : (env.addSymbol name schema).Tidy covers where
  symbols arity entry member := by
    rw [symbolsOfArity_addSymbol] at member
    split at member
    · rcases Entries.mem_insert member with rfl | old
      · exact body
      · exact tidy.symbols arity entry old
    · exact tidy.symbols arity entry member
  ghosts := tidy.ghosts
  assumptions := tidy.assumptions
  refutations := tidy.refutations

theorem addVariable (tidy : env.Tidy covers) (name : String) {t : RefinedType}
    (type : t.Tidy covers) : (env.addVariable name t).Tidy covers :=
  tidy.addSymbol name type

theorem addConstant (tidy : env.Tidy covers) (name : String) {schema : Schema}
    (body : schema.body.Tidy covers) : (env.addConstant name schema).Tidy covers := by
  have declared : ({ env with constants := env.constants.insert name }).Tidy covers :=
    ⟨tidy.symbols, tidy.ghosts, tidy.assumptions, tidy.refutations⟩
  exact declared.addSymbol name body

theorem addTypeVar (tidy : env.Tidy covers) (name : String) :
    (env.addTypeVar name).Tidy covers := by
  unfold Environment.addTypeVar
  split
  · exact tidy
  · exact ⟨tidy.symbols, tidy.ghosts, tidy.assumptions, tidy.refutations⟩

theorem addGhost (tidy : env.Tidy covers) (name : String) {t : RefinedType}
    (type : t.Tidy covers) : (env.addGhost name t).Tidy covers where
  symbols := tidy.symbols
  ghosts entry member := by
    rcases Entries.mem_insert member with rfl | old
    · exact type
    · exact tidy.ghosts entry old
  assumptions := tidy.assumptions
  refutations := tidy.refutations

theorem assume (tidy : env.Tidy covers) {formula : Formula}
    (covered : formula.Covered covers) : (env.assume formula).Tidy covers := by
  unfold Environment.assume
  split
  · exact tidy
  · refine ⟨tidy.symbols, tidy.ghosts, ?_, tidy.refutations⟩
    intro f member
    rcases SortedSet.mem_insert.mp member with rfl | old
    · exact covered
    · exact tidy.assumptions f old

theorem refute (tidy : env.Tidy covers) {formula : Formula}
    (covered : formula.Covered covers) : (env.refute formula).Tidy covers := by
  unfold Environment.refute
  split
  · exact tidy
  · refine ⟨tidy.symbols, tidy.ghosts, tidy.assumptions, ?_⟩
    intro f member
    rcases SortedSet.mem_insert.mp member with rfl | old
    · exact covered
    · exact tidy.refutations f old

/-! ## Facts -/

theorem covered_factAbout (name : String) {t : RefinedType} (tidy : t.Tidy covers) :
    (factAbout name t).Covered covers := by
  cases t with
  | function _ _ _ => trivial
  | scalar base arguments refinement =>
      exact Formula.covered_substituteVar (RefinedType.tidy_scalar.mp tidy).1 _ _ _

variable {assignment : TypeAssignment}

theorem scalarBindings (tidy : env.Tidy covers) (assigned : assignment.Tidy covers) :
    ∀ binding ∈ env.scalarBindings assignment, binding.2.Tidy covers := by
  intro binding member
  rcases mem_scalarBindings.mp member with ⟨type, inScope, applied, _⟩
  rw [← applied]
  apply assigned.apply
  rcases inScope with inSymbols | inGhosts
  · exact tidy.symbols 0 _ inSymbols
  · exact tidy.ghosts _ inGhosts

theorem positives (tidy : env.Tidy covers) (assigned : assignment.Tidy covers) :
    ∀ f ∈ (env.positives assignment).toList, f.Covered covers := by
  intro f member
  rcases SortedSet.mem_insertMany.mp (SortedSet.mem_toList.mp member) with old | new
  · rcases List.mem_map.mp (SortedSet.mem_ofList.mp old) with ⟨f, assumed, rfl⟩
    exact (tidy.assumptions f assumed).instantiateSorts _
  · rcases List.mem_map.mp (List.mem_filter.mp new).1 with ⟨binding, bound, rfl⟩
    exact covered_factAbout _
      (tidy.scalarBindings assigned binding (List.mem_filter.mp bound).1)

theorem negatives (tidy : env.Tidy covers) :
    ∀ f ∈ (env.negatives assignment).toList, f.Covered covers := by
  intro f member
  rcases List.mem_map.mp (SortedSet.mem_ofList.mp (SortedSet.mem_toList.mp member)) with
    ⟨f, refuted, rfl⟩
  exact (tidy.refutations f refuted).instantiateSorts _

end Environment.Tidy

/-! ## Symbols -/

theorem Schema.images_are_variables (names : List String) (supply : NameSupply) :
    ∀ entry ∈ ((names.mapM fun name => do
        return (name, Skeleton.atom (.typeVar (← freshName Stem.typeVar)) Formula.top) :
          Naming (List (String × RefinedType))).run supply).1,
      ∃ typeVar, entry.2 = .atom (.typeVar typeVar) .top := by
  induction names generalizing supply with
  | nil => exact List.forall_mem_nil _
  | cons name rest induction =>
      rw [List.mapM_cons]
      exact List.forall_mem_cons.mpr ⟨⟨_, rfl⟩, induction _⟩

variable {covers : String → Prop}

theorem Schema.tidy_instantiate {schema : Schema} (tidy : schema.body.Tidy covers)
    (supply : NameSupply) : (schema.instantiate.run supply).1.Tidy covers := by
  apply TypeAssignment.Tidy.apply _ tidy
  intro name t found
  have member := SortedMap.mem_of_mem_entries_ofList (SortedMap.mem_entries_of_find? found)
  rcases Schema.images_are_variables _ supply _ member with ⟨typeVar, rfl⟩
  exact RefinedType.tidy_atom.mpr trivial

theorem tidy_symbolType (env : Environment) (name : String) {t : RefinedType}
    (tidy : t.Tidy covers) : (Search.symbolType env name t).Tidy covers := by
  cases t with
  | function _ _ _ => exact tidy
  | scalar base arguments refinement =>
      unfold Search.symbolType
      dsimp only
      split
      · exact tidy
      · rw [RefinedType.tidy_scalar] at tidy ⊢
        exact ⟨⟨trivial, trivial⟩, tidy.2⟩

/-! ## Recursive calls -/

theorem Environment.tidy_decreasing {env : Environment} {name : String}
    {t smaller equal : RefinedType} (tidy : t.Tidy covers)
    (decreases : env.decreasing name t = some (smaller, equal)) :
    smaller.Tidy covers ∧ equal.Tidy covers := by
  unfold decreasing at decreases
  split at decreases
  · rename_i arguments refinement
    cases decreases
    rw [RefinedType.tidy_scalar] at tidy
    have bounds : (Formula.binary .ge (.value .int) (.int 0)).Covered covers :=
      ⟨trivial, trivial⟩
    constructor
    · exact RefinedType.tidy_scalar.mpr
        ⟨(tidy.1.and bounds).and ⟨trivial, trivial⟩, tidy.2⟩
    · exact RefinedType.tidy_scalar.mpr ⟨tidy.1.and ⟨trivial, trivial⟩, tidy.2⟩
  · rename_i datatype arguments refinement
    rcases Option.bind_eq_some_iff.mp decreases with ⟨metric, _, equal⟩
    cases equal
    rw [RefinedType.tidy_scalar] at tidy
    constructor
    · exact RefinedType.tidy_scalar.mpr ⟨tidy.1.and ⟨trivial, trivial⟩, tidy.2⟩
    · exact RefinedType.tidy_scalar.mpr ⟨tidy.1.and ⟨trivial, trivial⟩, tidy.2⟩
  · cases decreases

/-- What the type of a function passes on to its result, and to the types of a smaller argument
and of one of the same size, tells about all recursive calls. -/
theorem forall_recursiveCallsWithin {given : RefinedType → Prop}
    {made : String × RefinedType → Prop} {env : Environment} {strategy : FixpointStrategy}
    (parts : ∀ name argument result, given (.function name argument result) →
      given argument ∧ ∀ formal, given (RefinedType.renameVar result name formal argument))
    (decreasing : ∀ name t smaller equal, given t →
      env.decreasing name t = some (smaller, equal) → given smaller ∧ given equal)
    (here : ∀ (number : Nat) formal smaller result, given smaller → given result →
      made (Stem.recursiveCall ++ toString number, .function formal smaller result))
    (keeping : ∀ call formal argument, given argument → made call →
      made (call.1, .function formal argument call.2))
    (count : Nat) {t : RefinedType} (holds : given t) (supply : NameSupply) :
    ∀ call ∈ ((recursiveCallsWithin env strategy count t).run supply).1, made call := by
  induction count generalizing t supply with
  | zero => exact List.forall_mem_nil _
  | succ count induction =>
      cases t with
      | scalar => exact List.forall_mem_nil _
      | function name argument result =>
          obtain ⟨inArgument, inResult⟩ := parts name argument result holds
          let formal := Stem.argument ++ toString supply.issued
          let renamed := RefinedType.renameVar result name formal argument
          let later := (recursiveCallsWithin env strategy count renamed).run
            ⟨supply.issued + 1⟩
          have madeLater : ∀ call ∈ later.1, made call := induction (inResult formal) _
          have kept (other : RefinedType) (otherGiven : given other) :
              ∀ call ∈ later.1.map fun call =>
                (call.1, Skeleton.function formal other call.2), made call := by
            intro call member
            rcases List.mem_map.mp member with ⟨inner, inside, rfl⟩
            exact keeping inner formal other otherGiven (madeLater inner inside)
          cases decreases : env.decreasing name argument with
          | none =>
              simp only [recursiveCallsWithin, decreases]
              exact kept argument inArgument
          | some types =>
              simp only [recursiveCallsWithin, decreases]
              have both := decreasing name argument types.1 types.2 inArgument decreases
              have first := here later.2.issued formal types.1 renamed both.1 (inResult formal)
              cases strategy with
              | disabled => exact List.forall_mem_nil _
              | firstArgument => exact List.forall_mem_singleton.mpr first
              | allArguments => exact List.forall_mem_cons.mpr ⟨first, kept types.2 both.2⟩

theorem tidy_recursiveCallsWithin (env : Environment) (strategy : FixpointStrategy)
    (count : Nat) {t : RefinedType} (tidy : t.Tidy covers) (supply : NameSupply) :
    ∀ call ∈ ((recursiveCallsWithin env strategy count t).run supply).1,
      call.2.Tidy covers := by
  refine forall_recursiveCallsWithin ?_ ?_ ?_ ?_ count tidy supply
  · intro name argument result whole
    rw [RefinedType.tidy_function] at whole
    exact ⟨whole.1, fun formal => whole.2.renameVar name formal argument⟩
  · exact fun _ _ _ _ => Environment.tidy_decreasing
  · exact fun _ _ _ _ smaller result => RefinedType.tidy_function.mpr ⟨smaller, result⟩
  · exact fun _ _ _ argument call => RefinedType.tidy_function.mpr ⟨argument, call⟩

theorem Environment.Tidy.foldl_addSymbol {env : Environment} (tidy : env.Tidy covers)
    (typeVars : List String) {calls : List (String × RefinedType)}
    (each : ∀ call ∈ calls, call.2.Tidy covers) :
    (calls.foldl (fun env call => env.addSymbol call.1 (.generalize typeVars call.2))
      env).Tidy covers := by
  induction calls generalizing env with
  | nil => exact tidy
  | cons call rest induction =>
      rcases List.forall_mem_cons.mp each with ⟨first, others⟩
      apply induction _ others
      apply tidy.addSymbol
      rwa [Schema.body_generalize]

theorem Environment.Tidy.recursiveScope {env : Environment} (tidy : env.Tidy covers)
    (parameters : Parameters) {t : RefinedType} (type : t.Tidy covers)
    (supply : NameSupply) :
    ((Inhabit.recursiveScope env parameters t).run supply).1.1.Tidy covers :=
  tidy.foldl_addSymbol _
    (tidy_recursiveCallsWithin env parameters.fixpoints t.arity type supply)

end Inhabit
