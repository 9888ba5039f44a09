import Inhabit.Proofs.Naming.Types
import Inhabit.Proofs.Scoping.Extensions

/-! The facts in a scope under the empty assignment, and how they change when an
argument is bound or renamed. -/

namespace Inhabit

/-! ## Insertion of a new key -/

namespace Entries

variable {κ α : Type} [Ord κ] [Std.LawfulEqOrd κ]

theorem mem_insert_of_ne {entry : κ × α} {key : κ} (value : α) {entries : List (κ × α)}
    (different : entry.1 ≠ key) (member : entry ∈ entries) :
    entry ∈ insert key value entries := by
  induction entries with
  | nil => cases member
  | cons head rest induction =>
      rcases head with ⟨other, old⟩
      rw [insert]
      split
      · exact List.mem_cons_of_mem _ member
      · rename_i same
        rcases List.mem_cons.mp member with rfl | inRest
        · exact absurd (Std.LawfulEqOrd.eq_of_compare same).symm different
        · exact List.mem_cons_of_mem _ inRest
      · rcases List.mem_cons.mp member with rfl | inRest
        · exact List.mem_cons_self
        · exact List.mem_cons_of_mem _ (induction inRest)

theorem ne_of_find?_eq_none {entry : κ × α} {key : κ} {entries : List (κ × α)}
    (absent : find? key entries = none) (member : entry ∈ entries) : entry.1 ≠ key := by
  induction entries with
  | nil => cases member
  | cons head rest induction =>
      rcases head with ⟨other, old⟩
      rw [find?] at absent
      split at absent
      · cases absent
      · rename_i different
        rcases List.mem_cons.mp member with rfl | inRest
        · rintro rfl
          exact different Std.ReflOrd.compare_self
        · exact induction absent inRest

end Entries

namespace Environment

/-! ## Facts -/

theorem mem_positives_under {env : Environment} {assignment : TypeAssignment}
    {fact : Formula} :
    fact ∈ env.positives assignment ↔
      (∃ assumption ∈ env.assumptions, assignment.applyFormula assumption = fact) ∨
        ∃ name type, (name, type) ∈ env.scalarBindings assignment ∧
          env.isConstant name = false ∧ factAbout name type = fact ∧ fact.isTrue = false := by
  rw [positives, SortedSet.mem_insertMany, SortedSet.map, SortedSet.mem_ofList]
  simp only [List.mem_filter, List.mem_map, Bool.not_eq_true', Prod.exists,
    SortedSet.mem_toList]
  constructor
  · rintro (old | ⟨⟨name, type, ⟨bound, free⟩, rfl⟩, proper⟩)
    · exact .inl old
    · exact .inr ⟨name, type, bound, free, rfl, proper⟩
  · rintro (old | ⟨name, type, bound, free, rfl, proper⟩)
    · exact .inl old
    · exact .inr ⟨⟨name, type, ⟨bound, free⟩, rfl⟩, proper⟩

theorem mem_negatives_under {env : Environment} {assignment : TypeAssignment}
    {fact : Formula} :
    fact ∈ env.negatives assignment ↔
      ∃ refutation ∈ env.refutations, assignment.applyFormula refutation = fact := by
  rw [negatives, SortedSet.map, SortedSet.mem_ofList, List.mem_map]
  simp only [SortedSet.mem_toList]

theorem mem_positives {env : Environment} {fact : Formula} :
    fact ∈ env.positives ∅ ↔ fact ∈ env.assumptions ∨
      ∃ name type, (name, type) ∈ env.scalarBindings ∅ ∧ env.isConstant name = false ∧
        factAbout name type = fact ∧ fact.isTrue = false := by
  simp [mem_positives_under]

theorem mem_negatives {env : Environment} {fact : Formula} :
    fact ∈ env.negatives ∅ ↔ fact ∈ env.refutations := by
  simp [mem_negatives_under]

structure New (env : Environment) (name : String) : Prop where
  symbol : (env.symbolsOfArity 0).find? name = none
  notConstant : env.isConstant name = false
  positives : ∀ fact ∈ env.positives ∅, name ∉ fact.variableOccurrences
  negatives : ∀ fact ∈ env.negatives ∅, name ∉ fact.variableOccurrences

variable {env : Environment} {name : String} {type : RefinedType}

theorem symbolsOfArity_addVariable (isScalar : type.isScalar = true) :
    (env.addVariable name type).symbolsOfArity 0 =
      (env.symbolsOfArity 0).insert name (.mono type) := by
  cases type with
  | scalar base arguments refinement =>
      rw [addVariable, symbolsOfArity_addSymbol]
      exact if_pos rfl
  | function _ _ _ => cases isScalar

theorem mem_scalarBindings_addVariable_iff (isScalar : type.isScalar = true)
    (new : (env.symbolsOfArity 0).find? name = none) {binding : String × RefinedType} :
    binding ∈ (env.addVariable name type).scalarBindings ∅ ↔
      binding = (name, type) ∨ binding ∈ env.scalarBindings ∅ := by
  rcases binding with ⟨symbol, bound⟩
  rw [mem_scalarBindings, mem_scalarBindings, symbolsOfArity_addVariable isScalar]
  simp only [TypeAssignment.apply_empty]
  constructor
  · rintro ⟨_, inSymbols | inGhosts, rfl, isScalar⟩
    · rcases Entries.mem_insert inSymbols with equal | old
      · cases equal
        exact .inl rfl
      · exact .inr ⟨_, .inl old, rfl, isScalar⟩
    · exact .inr ⟨_, .inr inGhosts, rfl, isScalar⟩
  · rintro (equal | ⟨_, inSymbols | inGhosts, rfl, isScalar⟩)
    · cases equal
      exact ⟨_, .inl (SortedMap.mem_entries_of_find? (SortedMap.find?_insert_self _ _ _)),
        rfl, isScalar⟩
    · have different := Entries.ne_of_find?_eq_none new inSymbols
      exact ⟨_, .inl (Entries.mem_insert_of_ne _ different inSymbols), rfl, isScalar⟩
    · exact ⟨_, .inr inGhosts, rfl, isScalar⟩

theorem mem_positives_addVariable (isScalar : type.isScalar = true)
    (new : (env.symbolsOfArity 0).find? name = none)
    (notConstant : env.isConstant name = false) {fact : Formula} :
    fact ∈ (env.addVariable name type).positives ∅ ↔
      (factAbout name type = fact ∧ fact.isTrue = false) ∨ fact ∈ env.positives ∅ := by
  rw [mem_positives, mem_positives]
  simp only [mem_scalarBindings_addVariable_iff isScalar new]
  constructor
  · rintro (assumed | ⟨symbol, bound, equal | inScope, notConstant, rfl, proper⟩)
    · exact .inr (.inl assumed)
    · cases equal
      exact .inl ⟨rfl, proper⟩
    · exact .inr (.inr ⟨symbol, bound, inScope, notConstant, rfl, proper⟩)
  · rintro (⟨rfl, proper⟩ | assumed | ⟨symbol, bound, inScope, notConstant, rfl, proper⟩)
    · exact .inr ⟨name, type, .inl rfl, notConstant, rfl, proper⟩
    · exact .inl assumed
    · exact .inr ⟨symbol, bound, .inr inScope, notConstant, rfl, proper⟩

theorem mem_negatives_addVariable {fact : Formula} :
    fact ∈ (env.addVariable name type).negatives ∅ ↔ fact ∈ env.negatives ∅ := by
  rw [mem_negatives, mem_negatives]
  rfl

/-! ## Scopes that differ in a name -/

theorem mem_factAbout {other : String} (member : other ∈ (factAbout name type).variableOccurrences)
    (known : type.Known) : other = name ∨ other ∈ type.freeVars := by
  cases type with
  | function _ _ _ => cases member
  | scalar base arguments refinement =>
      have refinementKnown := (RefinedType.known_scalar.mp known).1
      rw [factAbout, Formula.substituteVar,
        Formula.variableOccurrences_substitute refinementKnown, List.mem_map] at member
      rcases member with ⟨occurring, occurs, equal⟩
      rw [RefinedType.mem_freeVars_scalar]
      split at equal
      · exact .inl equal.symm
      · exact .inr (.inl (equal ▸ occurs))

/-- The other scope is the first one with a variable renamed, as far as its facts are
concerned. With two equal names, it has the same facts. -/
structure RenamesTo (old new : String) (env other : Environment) : Prop where
  bound : other.boundTypeVars = env.boundTypeVars
  constants : ∀ name, other.isConstant name = env.isConstant name
  symbols : ∀ name, (other.symbolsOfArity 0).find? name ≠ none →
    (env.symbolsOfArity 0).find? name ≠ none ∨ (name = new ∧ old ≠ new)
  positives : ∀ fact, fact ∈ other.positives ∅ ↔
    ∃ source ∈ env.positives ∅, source.rename old new = fact
  negatives : ∀ fact, fact ∈ other.negatives ∅ ↔
    ∃ source ∈ env.negatives ∅, source.rename old new = fact
  fresh : env.New new
  inScope : old ≠ new → (env.symbolsOfArity 0).find? old ≠ none
  oldProper : old ≠ valueName
  newProper : new ≠ valueName

theorem RenamesTo.refl {new : String} (fresh : env.New new) (proper : new ≠ valueName) :
    RenamesTo new new env env where
  bound := rfl
  constants _ := rfl
  symbols _ := .inl
  positives fact := by simp
  negatives fact := by simp
  fresh := fresh
  inScope different := absurd rfl different
  oldProper := proper
  newProper := proper

theorem New.addVariable {new : String} (fresh : env.New new) (different : new ≠ name)
    (isScalar : type.isScalar = true) (known : type.Known) (isNew : env.New name)
    (notFree : new ∉ type.freeVars) : (env.addVariable name type).New new where
  symbol := by
    rw [symbolsOfArity_addVariable isScalar, SortedMap.find?_insert, if_neg different]
    exact fresh.symbol
  notConstant := fresh.notConstant
  positives fact member occurs := by
    rcases (mem_positives_addVariable isScalar isNew.symbol isNew.notConstant).mp member with
      ⟨rfl, _⟩ | old
    · exact (mem_factAbout occurs known).elim different notFree
    · exact fresh.positives fact old occurs
  negatives fact member :=
    fresh.negatives fact (mem_negatives_addVariable.mp member)

theorem RenamesTo.bind {old new : String} {other : Environment} {otherType : RefinedType}
    (scopes : RenamesTo old new env other) (isNew : env.New name) (different : name ≠ new)
    (isScalar : type.isScalar = true) (otherIsScalar : otherType.isScalar = true)
    (known : type.Known) (notFree : new ∉ type.freeVars)
    (sameFact : factAbout name otherType = (factAbout name type).rename old new) :
    RenamesTo old new (env.addVariable name type) (other.addVariable name otherType) := by
  have otherNew : (other.symbolsOfArity 0).find? name = none := by
    by_contra bound
    rcases scopes.symbols name bound with inScope | ⟨isNewName, _⟩
    · exact inScope isNew.symbol
    · exact different isNewName
  have otherNotConstant := (scopes.constants name).trans isNew.notConstant
  refine ⟨scopes.bound, scopes.constants, ?_, ?_, ?_,
    scopes.fresh.addVariable (Ne.symm different) isScalar known isNew notFree, ?_,
    scopes.oldProper, scopes.newProper⟩
  · intro symbol bound
    rw [symbolsOfArity_addVariable otherIsScalar, SortedMap.find?_insert] at bound
    rw [symbolsOfArity_addVariable isScalar, SortedMap.find?_insert]
    by_cases same : symbol = name
    · simp [same]
    · rw [if_neg same] at bound ⊢
      exact scopes.symbols symbol bound
  · intro fact
    rw [mem_positives_addVariable otherIsScalar otherNew otherNotConstant, scopes.positives]
    simp only [mem_positives_addVariable isScalar isNew.symbol isNew.notConstant]
    constructor
    · rintro (⟨rfl, proper⟩ | ⟨source, member, equal⟩)
      · rw [sameFact] at proper ⊢
        exact ⟨_, .inl ⟨rfl, by simpa using proper⟩, rfl⟩
      · exact ⟨source, .inr member, equal⟩
    · rintro ⟨source, ⟨rfl, proper⟩ | member, rfl⟩
      · exact .inl ⟨sameFact, by simpa using proper⟩
      · exact .inr ⟨source, member, rfl⟩
  · intro fact
    simp only [mem_negatives_addVariable]
    exact scopes.negatives fact
  · intro notSame
    rw [symbolsOfArity_addVariable isScalar, SortedMap.find?_insert]
    split
    · simp
    · exact scopes.inScope notSame

theorem RenamesTo.bindRenamed {new : String} {other : Environment}
    (scopes : RenamesTo new new env other) (isNew : env.New name) (different : name ≠ new)
    (proper : name ≠ valueName) (isScalar : type.isScalar = true) (known : type.Known)
    (notFree : name ∉ type.freeVars) (newNotFree : new ∉ type.freeVars) :
    RenamesTo name new (env.addVariable name type) (other.addVariable new type) := by
  have otherNew : (other.symbolsOfArity 0).find? new = none := by
    by_contra bound
    rcases scopes.symbols new bound with inScope | ⟨_, notSame⟩
    · exact inScope scopes.fresh.symbol
    · exact notSame rfl
  have otherNotConstant := (scopes.constants new).trans scopes.fresh.notConstant
  -- The fact about the argument is the only one that is renamed.
  have renamedFact : (factAbout name type).rename name new = factAbout new type := by
    cases type with
    | function _ _ _ => cases isScalar
    | scalar base arguments refinement =>
        rw [RefinedType.mem_freeVars_scalar, not_or] at notFree
        exact Formula.rename_substitute (RefinedType.known_scalar.mp known).1
          (.inr notFree.1)
  refine ⟨scopes.bound, scopes.constants, ?_, ?_, ?_,
    scopes.fresh.addVariable (Ne.symm different) isScalar known isNew newNotFree, ?_,
    proper, scopes.newProper⟩
  · intro symbol bound
    rw [symbolsOfArity_addVariable isScalar, SortedMap.find?_insert] at bound
    rw [symbolsOfArity_addVariable isScalar, SortedMap.find?_insert]
    by_cases same : symbol = new
    · exact .inr ⟨same, different⟩
    · rw [if_neg same] at bound
      split
      · simp
      · exact (scopes.symbols symbol bound).imp_right fun absurdity => absurd rfl absurdity.2
  · intro fact
    rw [mem_positives_addVariable isScalar otherNew otherNotConstant, scopes.positives]
    simp only [mem_positives_addVariable isScalar isNew.symbol isNew.notConstant]
    constructor
    · rintro (⟨rfl, proper⟩ | ⟨source, member, rfl⟩)
      · rw [← renamedFact] at proper
        exact ⟨_, .inl ⟨rfl, by simpa using proper⟩, renamedFact⟩
      · refine ⟨source, .inr member, ?_⟩
        rw [Formula.rename_self,
          Formula.rename_of_not_mem (isNew.positives source member)]
    · rintro ⟨source, ⟨rfl, proper⟩ | member, rfl⟩
      · refine .inl ⟨renamedFact.symm, by simpa using proper⟩
      · refine .inr ⟨source, member, ?_⟩
        rw [Formula.rename_self,
          Formula.rename_of_not_mem (isNew.positives source member)]
  · intro fact
    simp only [mem_negatives_addVariable]
    rw [scopes.negatives]
    constructor
    · rintro ⟨source, member, rfl⟩
      refine ⟨source, member, ?_⟩
      rw [Formula.rename_self, Formula.rename_of_not_mem (isNew.negatives source member)]
    · rintro ⟨source, member, rfl⟩
      refine ⟨source, member, ?_⟩
      rw [Formula.rename_self, Formula.rename_of_not_mem (isNew.negatives source member)]
  · intro _
    rw [symbolsOfArity_addVariable isScalar, SortedMap.find?_insert_self]
    simp

end Environment

end Inhabit
