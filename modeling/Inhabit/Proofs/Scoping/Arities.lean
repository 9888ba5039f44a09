import Inhabit.Proofs.Assignments.Quantifiers
import Inhabit.Proofs.Enumeration.Terms
import Inhabit.Proofs.Forms.Handing

/-! Symbols indexed by the arities of their types.

A symbol is stored at the arity that its type has when it is bound, and an assignment leaves
it there. So the index tells the arities as long as no type ends in a variable that comes to
stand for a function. -/

namespace Inhabit

/-! ## Variables that stand for functions -/

theorem Skeleton.arity_lastType (t : Skeleton ρ) : t.lastType.arity = 0 := by
  induction t using Skeleton.arity.induct with
  | case1 => rfl
  | case2 _ _ _ induction => exact induction

theorem RefinedType.arity_addRefinement (t : RefinedType) (formula : Formula) :
    Skeleton.arity (t.addRefinement formula) = t.arity := by
  cases t <;> rfl

namespace TypeAssignment

variable {assignment : TypeAssignment}

inductive LeadsToFunction (assignment : TypeAssignment) : String → Prop
  | direct {name parameter : String} {argument result : RefinedType}
      (found : assignment.find? name = some (.function parameter argument result)) :
      LeadsToFunction assignment name
  | chained {name other : String} {refinement : Formula}
      (found : assignment.find? name = some (.atom (.typeVar other) refinement))
      (leads : LeadsToFunction assignment other) : LeadsToFunction assignment name

theorem LeadsToFunction.arity_apply_pos (acyclic : assignment.Acyclic) {name : String}
    (leads : assignment.LeadsToFunction name) (refinement : Formula) :
    0 < (assignment.apply (.atom (.typeVar name) refinement)).arity := by
  induction leads generalizing refinement with
  | direct found =>
      rw [acyclic.apply_typeVar found, RefinedType.arity_addRefinement]
      exact Nat.succ_pos _
  | chained found leads induction =>
      rw [acyclic.apply_typeVar found, RefinedType.arity_addRefinement]
      exact induction _

theorem Acyclic.function_or_leads (acyclic : assignment.Acyclic) {t : RefinedType}
    (becomes : 0 < (assignment.apply t).arity) :
    0 < t.arity ∨ ∃ name refinement, t = .atom (.typeVar name) refinement ∧
      assignment.LeadsToFunction name := by
  induction t using acyclic.typeInduction with
  | function name argument result => exact .inl (Nat.succ_pos _)
  | scalar base arguments refinement keeps =>
      rw [apply_scalar keeps] at becomes
      cases becomes
  | assigned name t refinement found induction =>
      rw [acyclic.apply_typeVar found, RefinedType.arity_addRefinement] at becomes
      refine .inr ⟨name, refinement, rfl, ?_⟩
      rcases induction becomes with isFunction | ⟨other, inner, rfl, leads⟩
      · cases t with
        | function parameter argument result => exact .direct found
        | scalar _ _ _ => cases isFunction
      · exact .chained found leads

/-- A type gets no further arguments exactly if it does not end in a variable that leads to a
function, and it loses none. -/
theorem Acyclic.arity_apply (acyclic : assignment.Acyclic) (t : RefinedType) :
    t.arity ≤ (assignment.apply t).arity ∧
      ((assignment.apply t).arity = t.arity ↔ ∀ name refinement,
        t.lastType = .atom (.typeVar name) refinement → ¬assignment.LeadsToFunction name) := by
  have further : (assignment.apply t).arity = t.arity + (assignment.apply t.lastType).arity :=
    RefinedType.arity_instantiate _ _ t
  rw [further]
  refine ⟨Nat.le_add_right _ _, ?_⟩
  rw [Nat.add_eq_left]
  constructor
  · intro none name refinement last leads
    have := leads.arity_apply_pos acyclic refinement
    rw [last] at none
    omega
  · intro spares
    by_contra some
    rcases acyclic.function_or_leads (Nat.pos_of_ne_zero some) with
      isFunction | ⟨name, refinement, last, leads⟩
    · rw [Skeleton.arity_lastType] at isFunction
      cases isFunction
    · exact spares name refinement last leads

end TypeAssignment

def Schema.EndsInFunction (schema : Schema) (assignment : TypeAssignment) : Prop :=
  ∃ name refinement, schema.body.lastType = .atom (.typeVar name) refinement ∧
    (assignment.shadow schema.boundVars).LeadsToFunction name

theorem TypeAssignment.Acyclic.arity_applySchema {assignment : TypeAssignment}
    (acyclic : assignment.Acyclic) (schema : Schema) :
    schema.arity ≤ (assignment.applySchema schema).arity ∧
      ((assignment.applySchema schema).arity = schema.arity ↔
        ¬schema.EndsInFunction assignment) := by
  have applied : (assignment.applySchema schema).arity =
      ((assignment.shadow schema.boundVars).apply schema.body).arity := by
    rw [applySchema_eq, Schema.arity, Schema.body_generalize]
  rw [applied, Schema.EndsInFunction, Schema.arity]
  push Not
  exact (acyclic.shadow schema.boundVars).arity_apply schema.body

namespace Environment

variable {env : Environment} {assignment : TypeAssignment}

/-! ## The index -/

def Stores (env : Environment) (name : String) (schema : Schema) : Prop :=
  ∃ arity, (env.symbolsOfArity arity).find? name = some schema

/-- Where symbols are stored is related in this way to the arities of their types. -/
def IndexedBy (relation : Nat → Nat → Prop) (env : Environment) : Prop :=
  ∀ arity name schema, (env.symbolsOfArity arity).find? name = some schema →
    relation arity schema.arity

abbrev Indexed (env : Environment) : Prop := env.IndexedBy (· = ·)

theorem Indexed.find?_iff (indexed : env.Indexed) {arity : Nat} {name : String}
    {schema : Schema} : (env.symbolsOfArity arity).find? name = some schema ↔
      env.Stores name schema ∧ schema.arity = arity := by
  constructor
  · exact fun found => ⟨⟨arity, found⟩, (indexed arity name schema found).symm⟩
  · rintro ⟨⟨stored, found⟩, rfl⟩
    rwa [← indexed stored name schema found]

theorem Indexed.arity_le_maxArity (indexed : env.Indexed) {name : String} {schema : Schema}
    (inScope : env.Stores name schema) : schema.arity ≤ env.maxArity := by
  obtain ⟨arity, found⟩ := inScope
  rw [← indexed arity name schema found]
  exact le_maxArity found

theorem exists_of_maxArity_ne_zero (env : Environment) (positive : env.maxArity ≠ 0) :
    ∃ name schema, (env.symbolsOfArity env.maxArity).find? name = some schema := by
  have among (numbers : List Nat) (start : Nat) :
      numbers.foldl max start = start ∨ numbers.foldl max start ∈ numbers := by
    induction numbers generalizing start with
    | nil => exact .inl rfl
    | cons head rest induction =>
        rw [List.foldl_cons, List.mem_cons]
        rcases induction (max start head) with same | inRest
        · rcases max_choice start head with isStart | isHead
          · exact .inl (same.trans isStart)
          · exact .inr (.inl (same.trans isHead))
        · exact .inr (.inr inRest)
  have listed := (among _ 0).resolve_left positive
  obtain ⟨⟨arity, symbols⟩, member, isMax⟩ := List.mem_map.mp listed
  obtain ⟨stored, occupied⟩ := List.mem_filter.mp member
  obtain ⟨⟨name, schema⟩, inSymbols⟩ := List.exists_mem_of_ne_nil symbols.entries (by
    rintro none
    rw [SortedMap.isEmpty, none] at occupied
    cases occupied)
  refine ⟨name, schema, ?_⟩
  rw [maxArity, ← isMax, symbolsOfArity, SortedMap.find?_of_mem_entries stored]
  exact SortedMap.find?_of_mem_entries inSymbols

/-! ## Changes of a scope -/

inductive Change where
  | addVariable (name : String) (type : RefinedType)
  | addSymbol (name : String) (schema : Schema)
  | addConstant (name : String) (schema : Schema)
  | addTypeVar (name : String)
  | addDatatype (name : String) (datatype : Datatype)
  | assume (formula : Formula)
  | refute (formula : Formula)
  | addGhost (name : String) (type : RefinedType)
  | apply (assignment : TypeAssignment)

def change (env : Environment) : Change → Environment
  | .addVariable name type => env.addVariable name type
  | .addSymbol name schema => env.addSymbol name schema
  | .addConstant name schema => env.addConstant name schema
  | .addTypeVar name => env.addTypeVar name
  | .addDatatype name datatype => env.addDatatype name datatype
  | .assume formula => env.assume formula
  | .refute formula => env.refute formula
  | .addGhost name type => env.addGhost name type
  | .apply assignment => assignment.applyEnvironment env

def changeAll (env : Environment) (changes : List Change) : Environment :=
  changes.foldl change env

theorem symbolsOfArity_applyEnvironment (assignment : TypeAssignment) (env : Environment)
    (arity : Nat) :
    (assignment.applyEnvironment env).symbolsOfArity arity =
      (env.symbolsOfArity arity).mapValues assignment.applySchema := by
  rw [TypeAssignment.applyEnvironment, symbolsOfArity, symbolsOfArity, SortedMap.find?_mapValues]
  cases env.symbols.find? arity <;> rfl

section Relation

variable {relation : Nat → Nat → Prop} (same : ∀ n, relation n n)

include same

theorem IndexedBy.addSymbol (indexed : env.IndexedBy relation) (name : String)
    (schema : Schema) : (env.addSymbol name schema).IndexedBy relation := by
  intro arity other found isFound
  rw [symbolsOfArity_addSymbol] at isFound
  split at isFound
  · rename_i equal
    rw [SortedMap.find?_insert] at isFound
    split at isFound
    · cases isFound
      exact equal ▸ same _
    · exact indexed arity other found isFound
  · exact indexed arity other found isFound

theorem IndexedBy.change (indexed : env.IndexedBy relation) (change : Change)
    (keeps : ∀ assignment, change = .apply assignment →
      ∀ arity name schema, (env.symbolsOfArity arity).find? name = some schema →
        relation arity schema.arity → relation arity (assignment.applySchema schema).arity) :
    (env.change change).IndexedBy relation := by
  cases change with
  | addVariable name type => exact indexed.addSymbol same name (.mono type)
  | addSymbol name schema => exact indexed.addSymbol same name schema
  | addConstant name schema =>
      have declared : IndexedBy relation
          { env with constants := env.constants.insert name } := indexed
      exact declared.addSymbol same name schema
  | addTypeVar | assume | refute =>
      simp only [Environment.change, Environment.addTypeVar, Environment.assume,
        Environment.refute]
      split <;> exact indexed
  | addDatatype | addGhost => exact indexed
  | apply assignment =>
      intro arity name applied found
      rw [Environment.change, symbolsOfArity_applyEnvironment, SortedMap.find?_mapValues,
        Option.map_eq_some_iff] at found
      obtain ⟨schema, stored, rfl⟩ := found
      exact keeps assignment rfl arity name schema stored (indexed arity name schema stored)

end Relation

theorem Indexed.applyEnvironment_iff (indexed : env.Indexed) (acyclic : assignment.Acyclic) :
    (assignment.applyEnvironment env).Indexed ↔
      ∀ name schema, env.Stores name schema → ¬schema.EndsInFunction assignment := by
  constructor
  · rintro after name schema ⟨arity, found⟩
    rw [← (acyclic.arity_applySchema schema).2, ← indexed arity name schema found]
    refine (after arity name _ ?_).symm
    rw [symbolsOfArity_applyEnvironment, SortedMap.find?_mapValues, found]
    rfl
  · intro spares
    refine indexed.change (fun _ => rfl) (.apply assignment) ?_
    rintro _ ⟨⟩ arity name schema found stored
    exact stored.trans ((acyclic.arity_applySchema schema).2.mpr
      (spares name schema ⟨arity, found⟩)).symm

/-! ## Sequences of changes -/

/-- No assignment makes a function of a variable in which a symbol ends. -/
def Spares : Environment → List Change → Prop
  | _, [] => True
  | env, change :: rest =>
      (∀ assignment, change = .apply assignment →
        ∀ name schema, env.Stores name schema → ¬schema.EndsInFunction assignment) ∧
      Spares (env.change change) rest

section Sequences

variable {changes : List Change}
  (acyclic : ∀ assignment, Change.apply assignment ∈ changes → assignment.Acyclic)

include acyclic

theorem IndexedBy.changeAll_le (indexed : env.IndexedBy (· ≤ ·)) :
    (env.changeAll changes).IndexedBy (· ≤ ·) := by
  induction changes generalizing env with
  | nil => exact indexed
  | cons change rest induction =>
      refine induction (fun assignment member =>
        acyclic assignment (List.mem_cons_of_mem _ member)) ?_
      refine indexed.change (fun _ => le_rfl) change ?_
      rintro assignment rfl arity name schema _ below
      exact below.trans
        ((acyclic assignment List.mem_cons_self).arity_applySchema schema).1

theorem Indexed.changeAll (indexed : env.Indexed) (spares : env.Spares changes) :
    (env.changeAll changes).Indexed := by
  induction changes generalizing env with
  | nil => exact indexed
  | cons change rest induction =>
      refine induction (fun assignment member =>
        acyclic assignment (List.mem_cons_of_mem _ member)) ?_ spares.2
      refine indexed.change (fun _ => rfl) change ?_
      rintro assignment rfl arity name schema found stored
      exact stored.trans (((acyclic assignment List.mem_cons_self).arity_applySchema schema).2.mpr
        (spares.1 assignment rfl name schema ⟨arity, found⟩)).symm

end Sequences

theorem indexedBy_empty (relation : Nat → Nat → Prop) : IndexedBy relation ∅ := nofun

/-- Symbols are indexed by the arities of their types, in every scope that comes from the
empty one without an assignment that makes a function of a variable in which a symbol ends:
what is stored at an arity are the symbols of this arity, and the greatest arity is that of a
symbol. Any other assignment leaves a symbol below its arity, and no symbol gets above it. -/
theorem symbols_indexed_by_arity (changes : List Change)
    (acyclic : ∀ assignment, Change.apply assignment ∈ changes → assignment.Acyclic) :
    let env := (∅ : Environment).changeAll changes
    (Spares ∅ changes →
      (∀ arity name schema, (env.symbolsOfArity arity).find? name = some schema ↔
        env.Stores name schema ∧ schema.arity = arity) ∧
      (∀ name schema, env.Stores name schema → schema.arity ≤ env.maxArity) ∧
      (env.maxArity = 0 ∨ ∃ name schema, env.Stores name schema ∧
        schema.arity = env.maxArity)) ∧
    env.IndexedBy (· ≤ ·) ∧
    (env.Indexed → ∀ assignment : TypeAssignment, assignment.Acyclic →
      ((assignment.applyEnvironment env).Indexed ↔
        ∀ name schema, env.Stores name schema → ¬schema.EndsInFunction assignment)) := by
  intro env
  refine ⟨fun spares => ?_, (indexedBy_empty _).changeAll_le acyclic,
    fun indexed _ => indexed.applyEnvironment_iff⟩
  have indexed : env.Indexed := Indexed.changeAll acyclic (indexedBy_empty _) spares
  refine ⟨fun _ _ _ => indexed.find?_iff, fun _ _ => indexed.arity_le_maxArity, ?_⟩
  by_cases none : env.maxArity = 0
  · exact .inl none
  · obtain ⟨name, schema, found⟩ := env.exists_of_maxArity_ne_zero none
    exact .inr ⟨name, schema, indexed.find?_iff.mp found⟩

def handedFunctions : TypeAssignment :=
  let step : RefinedType := .function "n" (.atom .int .top) (.atom .int .top)
  .ofList [("a", .atom (.typeVar "b") .top), ("b", .atom .int .top), ("c", step), ("h", step)]

def mixedScope : List Change :=
  let var (name : String) : RefinedType := .atom (.typeVar name) .top
  [.addTypeVar "t", .addVariable "x" (var "a"), .addGhost "g" (var "h"),
    .addConstant "id" (.generalize ["c"] (.function "y" (var "c") (var "c"))),
    .addVariable "f" (.function "y" (var "h") (var "a")),
    .assume (.atLeast (.var (.var "a") "x") (.var .int "m")), .apply handedFunctions,
    .addVariable "z" (var "t")]

theorem mixedScope_indexed :
    let env := (∅ : Environment).changeAll mixedScope
    (∀ assignment, Change.apply assignment ∈ mixedScope → assignment.Acyclic) ∧
      Spares ∅ mixedScope ∧
      (env.symbolsOfArity 0).keys = ["x", "z"] ∧ (env.symbolsOfArity 1).keys = ["f", "id"] ∧
      env.maxArity = 1 ∧
      ∀ arity name schema, (env.symbolsOfArity arity).find? name = some schema ↔
        env.Stores name schema ∧ schema.arity = arity := by
  intro env
  have acyclic : handedFunctions.Acyclic :=
    TypeAssignment.acyclic_of_entries (fun name => if name = "a" then 1 else 0) (by decide)
  have onlyOne : ∀ assignment, Change.apply assignment ∈ mixedScope → assignment.Acyclic := by
    intro assignment member
    have isHanded : assignment = handedFunctions := by simpa [mixedScope] using member
    exact isHanded ▸ acyclic
  have spares : Spares ∅ mixedScope := by
    refine ⟨nofun, nofun, nofun, nofun, nofun, nofun, ?_, nofun, trivial⟩
    rintro _ ⟨⟩ name schema inScope
    obtain ⟨arity, found⟩ := inScope
    obtain ⟨symbols, listed, member⟩ := exists_mem_symbols_of_find? found
    apply (acyclic.arity_applySchema schema).2.mp
    exact (by decide : ∀ bucket ∈ ((∅ : Environment).changeAll (mixedScope.take 6)).symbols.entries,
      ∀ entry ∈ bucket.2.entries,
        (handedFunctions.applySchema entry.2).arity = entry.2.arity) _ listed _ member
  refine ⟨onlyOne, spares, by decide, by decide, by decide, ?_⟩
  exact ((symbols_indexed_by_arity mixedScope onlyOne).1 spares).1

/-- A variable that comes to stand for a function stays among the symbols without arguments,
and is not counted for the greatest arity. -/
theorem functionVariable_misplaced :
    let step : RefinedType := .function "n" (.atom .int .top) (.atom .int .top)
    let assignment : TypeAssignment := .singleton "a" step
    let env := (∅ : Environment).changeAll
      [.addVariable "x" (.atom (.typeVar "a") .top), .apply assignment]
    assignment.Acyclic ∧ (env.symbolsOfArity 0).entries = [("x", .mono step)] ∧
      (Schema.mono step).arity = 1 ∧ env.symbolsOfArity 1 = ∅ ∧ env.maxArity = 0 ∧
      ¬env.Indexed := by
  intro step assignment env
  have stored : (env.symbolsOfArity 0).find? "x" = some (.mono step) := by decide
  refine ⟨TypeAssignment.acyclic_of_entries (fun _ => 0) (by decide), by decide, by decide,
    by decide, by decide, fun indexed => ?_⟩
  exact absurd (indexed 0 "x" _ stored) (by decide)

end Environment

end Inhabit
