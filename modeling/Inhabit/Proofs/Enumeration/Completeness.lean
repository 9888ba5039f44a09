import Inhabit.Proofs.Enumeration.Exhaustion

/-! What a search for terms of some depth hands on, if everything is sent back: the simply
typed terms of its shape, each of them once. -/

namespace Inhabit

namespace Environment

def typesSize (env : Environment) : Nat :=
  ((env.symbols.values.flatMap SortedMap.values).map fun schema => schema.body.toTerm.size).sum

theorem size_le_typesSize {env : Environment} {arity : Nat} {name : String} {type : RefinedType}
    (found : (env.symbolsOfArity arity).find? name = some (.mono type)) :
    type.toTerm.size ≤ env.typesSize := by
  obtain ⟨symbols, listed, entry⟩ := exists_mem_symbols_of_find? found
  have inBucket : Schema.mono type ∈ symbols.values := List.mem_map_of_mem entry
  have inScope : symbols ∈ env.symbols.values := List.mem_map_of_mem listed
  exact List.le_sum_of_mem
    (List.mem_map_of_mem (List.mem_flatMap.mpr ⟨symbols, inScope, inBucket⟩))

theorem Monomorphic.addVariable {env : Environment} (plain : env.Monomorphic) (name : String)
    {type : RefinedType} (rigid : env.Rigid type) : (env.addVariable name type).Monomorphic where
  mono arity other schema found := by
    rw [Environment.addVariable, symbolsOfArity_addSymbol] at found
    by_cases same : arity = (Schema.mono type).arity
    · rw [if_pos same, SortedMap.find?_insert] at found
      split at found
      · cases found
        exact ⟨type, rfl, same.symm, rigid⟩
      · exact plain.mono arity other schema found
    · rw [if_neg same] at found
      exact plain.mono arity other schema found
  undrawn := plain.undrawn

end Environment

theorem Memory.idle_start (setting : Setting σ) (solver : σ) (env : Environment) :
    (setting.start solver).Idle env where
  pending := rfl
  simple := rfl
  candidates := List.cons_ne_nil _ _
  grounded := TypeAssignment.grounded_empty env
  drawn _ _ := nofun

namespace Search

/-- What comes after a term notes it and fails, but not fatally. -/
def Rejects (setting : Setting (List Program × τ)) (found : TermSink (List Program × τ)) : Prop :=
  ∀ env program memory, ∃ failure after,
    found env program setting memory = (.error (.failed failure), after) ∧
      failure.isFatal = false ∧ memory.names.issued ≤ after.names.issued ∧
      after.solver.1 = memory.solver.1 ++ [program]

theorem Rejects.handles {setting : Setting (List Program × τ)}
    {found : TermSink (List Program × τ)} (rejects : Rejects setting found) (env : Environment)
    (room count : Nat) (result : TypeTerm) :
    Handles setting env room count result found fun entry => [entry.1] := by
  intro entry _ other program memory _ listed _
  rcases rejects other program memory with ⟨failure, after, ran, recoverable, advances, notes⟩
  exact ⟨failure, after, [program], ran, recoverable, advances, notes,
    congrArg (List.cons · []) listed.term⟩

/-- If every term is rejected, those of bounded height have been handed on, each of them once,
and nothing else. -/
theorem searchTerm_enumerates {setting : Setting (List Program × Record)} {env : Environment}
    {shape : Shape} {found : TermSink (List Program × Record)}
    {memory : Memory (List Program × Record)}
    (accepting : setting.solver = (Solver.fixed true).withNotes (List Program))
    (incremental : setting.parameters.incremental = true)
    (enough : 4 * (env.typesSize + shape.toTerm.size) ≤ setting.steps)
    (plain : env.Monomorphic) (rigid : env.Rigid shape.refineTop)
    (rejects : Rejects setting found) (idle : memory.Idle env) (depth : Nat) :
    ∃ (failure : Failure) (after : Memory (List Program × Record)) (programs : List Program)
      (terms : List ApplicativeTerm),
      searchTerm depth env shape found setting memory = (.error (.failed failure), after) ∧
        failure.isFatal = false ∧ after.solver.1 = memory.solver.1 ++ programs ∧
        programs.map Program.applicative? = terms.map some ∧ terms.Nodup ∧
        ∀ term, term ∈ terms ↔ HasType env term shape.toTerm ∧ term.height ≤ depth := by
  let room := env.typesSize + shape.toTerm.size
  have compares : Compares setting env room :=
    ⟨accepting, incremental, enough, plain, fun _ _ _ found =>
      (Environment.size_le_typesSize found).trans (Nat.le_add_right _ _)⟩
  have top : shape.refineTop.toTerm = shape.toTerm :=
    (Skeleton.toTerm_shape _).symm.trans
      (congrArg Skeleton.toTerm (Shape.shape_refine true shape))
  have wanted : Wanted env room [] shape shape.toTerm memory := by
    rw [← top]
    exact .done idle rigid (Shape.shape_refine true shape) (by rw [top]; exact Nat.le_add_left _ _)
  rcases exhausts_searchTerm compares depth env [] shape shape.toTerm memory found _ ⟨_, rfl⟩
    wanted (rejects.handles env room _ _) with
    ⟨failure, after, programs, failed, recoverable, _, notes, same⟩
  have listed : (env.termsTo depth 0 shape.toTerm).flatMap (fun entry => [entry.1]) =
      (env.termsTo depth 0 shape.toTerm).map Prod.fst :=
    (List.map_eq_flatMap).symm
  rw [List.length_nil, listed] at same
  refine ⟨failure, after, programs, _, failed, recoverable, notes, same,
    env.nodup_termsTo depth 0 _, fun term => ?_⟩
  constructor
  · intro member
    rcases List.mem_map.mp member with ⟨⟨_, arguments⟩, inList, rfl⟩
    rcases plain.mem_termsTo.mp inList with ⟨none, typed, low⟩
    rw [List.length_eq_zero_iff] at none
    subst none
    exact ⟨typed, low⟩
  · rintro ⟨typed, low⟩
    have inList : (term, []) ∈ env.termsTo depth 0 shape.toTerm :=
      plain.mem_termsTo.mpr ⟨rfl, typed, low⟩
    exact List.mem_map_of_mem inList

/-! ## A folded function -/

section Fold

private def letter : RefinedType := .atom (.typeVar "a") .top

def foldScope : Environment :=
  ((({ boundTypeVars := ["a"] } : Environment).addVariable "start" letter).addVariable "one"
    (.atom .int .top)).addVariable "next"
      (.function "x" letter (.function "n" (.atom .int .top) letter))

private theorem foldScope_monomorphic : foldScope.Monomorphic := by
  have plain : ({ boundTypeVars := ["a"] } : Environment).Monomorphic := by
    refine ⟨fun _ _ _ => nofun, fun number => ?_⟩
    simp [Environment.isBound, Stem.typeVar, String.ext_iff, String.toList_append]
  exact ((plain.addVariable "start" (by decide)).addVariable "one" (by decide)).addVariable
    "next" (by decide)

def foldSetting : Setting (List Program × Record) where
  parameters := {}
  solver := (Solver.fixed true).withNotes (List Program)
  sources := .none
  steps := 100

def askOn : TermSink (List Program × Record) := fun _ program => do
  modifyNotes (· ++ [program])
  fail .unsatisfiable

theorem rejects_askOn : Rejects foldSetting askOn :=
  fun _ _ _ => ⟨_, _, rfl, rfl, le_rfl, rfl⟩

theorem foldScope_enumerates :
    ∃ (failure : Failure) (after : Memory (List Program × Record)) (programs : List Program)
      (terms : List ApplicativeTerm),
      searchTerm 4 foldScope letter.shape askOn foldSetting (foldSetting.start ([], {})) =
          (.error (.failed failure), after) ∧
        failure.isFatal = false ∧ after.solver.1 = programs ∧
        programs.map Program.applicative? = terms.map some ∧ terms.Nodup ∧
        ∀ term, term ∈ terms ↔ HasType foldScope term letter.shape.toTerm ∧ term.height ≤ 4 :=
  searchTerm_enumerates rfl rfl (by decide) foldScope_monomorphic (by decide) rejects_askOn
    (Memory.idle_start foldSetting ([], {}) foldScope) 4

example :
    (searchTerm 4 foldScope letter.shape askOn foldSetting
      (foldSetting.start ([], {}))).2.solver.1.map Program.render =
        ["start", "next start one", "next (next start one) one"] := by
  decide +kernel

end Fold

end Search

end Inhabit
