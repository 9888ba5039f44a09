import Inhabit.Proofs.Enumeration.Checks
import Inhabit.Proofs.Forms.Derivations
import Inhabit.Proofs.Search.Paths
import Inhabit.Search.Terms

/-! A search for terms that is refused every term goes through all of them.

What is handed on is noted beside the memory of the solver. The induction is on the depth,
for functions that still await any number of arguments. -/

namespace Inhabit

theorem Memory.Idle.resumed {memory later : Memory σ} {env : Environment}
    (idle : memory.Idle env) (resumed : memory.Resumed later) : later.Idle env where
  pending := resumed.state ▸ idle.pending
  simple := resumed.state ▸ idle.simple
  candidates := resumed.state ▸ idle.candidates
  grounded := resumed.state ▸ idle.grounded
  drawn name t found := by
    rw [resumed.state] at found
    exact (idle.drawn name t found).later resumed.advances

namespace Search

/-! ## Searches that find nothing to keep -/

section Exhausts

variable {α β τ : Type} {setting : Setting (List Program × τ)}
  {memory middle : Memory (List Program × τ)} {terms : List ApplicativeTerm}

/-- The search fails without a fault, after it has noted programs for these terms. -/
def Exhausts (setting : Setting (List Program × τ)) (run : Search (List Program × τ) Program)
    (memory : Memory (List Program × τ)) (terms : List ApplicativeTerm) : Prop :=
  ∃ failure after programs, run setting memory = (.error (.failed failure), after) ∧
    failure.isFatal = false ∧ memory.names.issued ≤ after.names.issued ∧
    after.solver.1 = memory.solver.1 ++ programs ∧
    programs.map Program.applicative? = terms.map some

namespace Exhausts

theorem of_error {run : Search (List Program × τ) Program} {failure : Failure}
    (failed : run setting memory = (.error (.failed failure), middle))
    (recoverable : failure.isFatal = false) (quiet : memory.Quiet middle) :
    Exhausts setting run memory [] :=
  ⟨failure, middle, [], failed, recoverable, quiet.advances,
    quiet.notes.trans (List.append_nil _).symm, rfl⟩

theorem fail {failure : Failure} (recoverable : failure.isFatal = false) :
    Exhausts setting (Search.fail failure) memory [] :=
  .of_error rfl recoverable ⟨le_rfl, rfl⟩

theorem bind_of_ok {run : Search (List Program × τ) α}
    {rest : α → Search (List Program × τ) Program} {value : α}
    (ran : run setting memory = (.ok value, middle)) (quiet : memory.Quiet middle)
    (exhausts : Exhausts setting (rest value) middle terms) :
    Exhausts setting (run >>= rest) memory terms := by
  rcases exhausts with ⟨failure, after, programs, failed, recoverable, advances, notes, same⟩
  refine ⟨failure, after, programs, ?_, recoverable, quiet.advances.trans advances, ?_, same⟩
  · rw [run_bind, ran]
    exact failed
  · rw [notes, quiet.notes]

theorem bind_of_error {run : Search (List Program × τ) α}
    {rest : α → Search (List Program × τ) Program} {failure : Failure}
    (failed : run setting memory = (.error (.failed failure), middle))
    (recoverable : failure.isFatal = false) (quiet : memory.Quiet middle) :
    Exhausts setting (run >>= rest) memory [] := by
  apply of_error _ recoverable quiet
  rw [run_bind, failed]

theorem fresh_bind {stem : String} {rest : String → Search (List Program × τ) Program}
    (exhausts : Exhausts setting (rest (stem ++ toString memory.names.issued))
      { memory with names := ⟨memory.names.issued + 1⟩ } terms) :
    Exhausts setting (fresh stem >>= rest) memory terms := by
  have drawn : (fresh stem : Search (List Program × τ) String) setting memory =
      (.ok (stem ++ toString memory.names.issued),
        { memory with names := ⟨memory.names.issued + 1⟩ }) := rfl
  exact bind_of_ok drawn ⟨Nat.le_succ _, rfl⟩ exhausts

theorem choose {options : List α} {lists : List (List ApplicativeTerm)} {none : Failure}
    {attempt : α → Search (List Program × τ) Program} (recoverable : none.isFatal = false)
    (each : List.Forall₂ (fun option terms => ∀ later, memory.Resumed later →
      Exhausts setting (attempt option) later terms) options lists) :
    Exhausts setting (Search.choose options none attempt) memory lists.flatten := by
  suffices any : ∀ current, memory.Resumed current → ∀ none : Failure, none.isFatal = false →
      Exhausts setting (Search.choose options none attempt) current lists.flatten from
    any memory (.refl memory) none recoverable
  induction each with
  | nil => exact fun _ _ _ recoverable => fail recoverable
  | @cons option terms rest others first _ induction =>
      intro current resumed none _
      rcases first current resumed with
        ⟨failure, after, programs, failed, recoverable, advances, notes, same⟩
      let next : Memory (List Program × τ) := { after with state := current.state }
      have resumedNext : memory.Resumed next :=
        ⟨resumed.state, resumed.advances.trans advances⟩
      rcases induction next resumedNext failure recoverable with
        ⟨last, final, more, failedRest, recoverableRest, advancesRest, notesRest, sameRest⟩
      refine ⟨last, final, programs ++ more, ?_, recoverableRest, advances.trans advancesRest,
        ?_, ?_⟩
      · unfold Search.choose
        rw [failed]
        dsimp only
        rw [if_neg (by simp [recoverable])]
        exact failedRest
      · rw [notesRest]
        exact (congrArg (· ++ more) notes).trans (List.append_assoc _ _ _)
      · rw [List.map_append, same, sameRest, List.flatten_cons, List.map_append]

end Exhausts

end Exhausts

/-! ## Terms that are handed on -/

structure IsListed (env : Environment) (room : Nat) (result : TypeTerm)
    (entry : ApplicativeTerm × List TypeTerm) (program : Program) : Prop where
  term : program.applicative? = some entry.1
  type : program.type.toTerm = .arrows entry.2 result
  rigid : env.Rigid program.type
  small : program.type.toTerm.size ≤ room

/-- From any idle branch, what is done with a listed term that awaits so many arguments
exhausts these terms. -/
def Handles {τ : Type} (setting : Setting (List Program × τ)) (env : Environment)
    (room count : Nat) (result : TypeTerm) (found : TermSink (List Program × τ))
    (terms : ApplicativeTerm × List TypeTerm → List ApplicativeTerm) : Prop :=
  ∀ entry, entry.2.length = count → ∀ other program memory, env.SameButGhosts other →
    IsListed env room result entry program → memory.Idle env →
      Exhausts setting (found other program) memory (terms entry)

theorem shape_symbolType (env : Environment) (name : String) (type : RefinedType) :
    (symbolType env name type).shape = type.shape := by
  cases type with
  | function => rfl
  | scalar base arguments refinement =>
      dsimp only [symbolType]
      split
      · rfl
      · rw [Skeleton.shape_scalar, Skeleton.shape_scalar]

/-- The search solves as it goes, with a solver that accepts everything and with the steps
to compare what the scope brings. -/
structure Compares (setting : Setting (List Program × Record)) (env : Environment)
    (room : Nat) : Prop where
  accepting : setting.solver = (Solver.fixed true).withNotes (List Program)
  incremental : setting.parameters.incremental = true
  enough : 4 * room ≤ setting.steps
  plain : env.Monomorphic
  bounded : ∀ arity name type, (env.symbolsOfArity arity).find? name = some (.mono type) →
    type.toTerm.size ≤ room

/-- In an idle branch, a term is looked for whose type takes new variables to the result. -/
structure Wanted (env : Environment) (room : Nat) (vars : List String) (shape : Shape)
    (result : TypeTerm) (memory : Memory σ) : Prop where
  idle : memory.Idle env
  awaits : Awaits env vars shape.refineTop result
  small : result.size ≤ room
  distinct : vars.Nodup
  drawn : ∀ var ∈ vars, memory.names.Avoids var
  isOpen : ∀ var ∈ vars, memory.state.assignment.find? var = none

section Wanted

variable {σ : Type} {env : Environment} {room : Nat} {vars : List String} {shape : Shape}
  {result : TypeTerm} {memory later : Memory σ}

theorem Wanted.resumed (wanted : Wanted env room vars shape result memory)
    (resumed : memory.Resumed later) : Wanted env room vars shape result later where
  idle := wanted.idle.resumed resumed
  awaits := wanted.awaits
  small := wanted.small
  distinct := wanted.distinct
  drawn var member := (wanted.drawn var member).later resumed.advances
  isOpen := by
    rw [resumed.state]
    exact wanted.isOpen

theorem Wanted.arity (wanted : Wanted env room vars shape result memory) :
    shape.arity = vars.length + result.arity := by
  rw [← wanted.awaits.arity, Shape.refineTop, ← Skeleton.arity_shape (Shape.refine true shape),
    Shape.shape_refine]

theorem Wanted.done (idle : memory.Idle env) {t : RefinedType} (rigid : env.Rigid t)
    (same : t.shape = shape) (small : t.toTerm.size ≤ room) :
    Wanted env room [] shape t.toTerm memory where
  idle := idle
  awaits := by
    have top : shape.refineTop.shape = t.shape := (Shape.shape_refine true shape).trans same.symm
    rw [← RefinedType.toTerm_of_shape top]
    exact .done (rigid.of_shape top)
  small := small
  distinct := .nil
  drawn := List.forall_mem_nil _
  isOpen := List.forall_mem_nil _

theorem Wanted.function (wanted : Wanted env room vars shape result memory)
    (free : ∀ number : Nat, env.isBound (Stem.typeVar ++ toString number) = false)
    (parameter : String) {names : NameSupply} (advances : memory.names.issued < names.issued) :
    let var := Stem.typeVar ++ toString memory.names.issued
    Wanted env room (var :: vars) (.function parameter (.atom (.typeVar var) ()) shape) result
      { memory with names } := by
  intro var
  have draws : memory.names.Draws names var :=
    ⟨memory.names.issued, le_rfl, advances, rfl⟩
  constructor
  · exact wanted.idle.resumed ⟨rfl, advances.le⟩
  · exact .argument parameter _ (free _) wanted.awaits
  · exact wanted.small
  · exact List.nodup_cons.mpr
      ⟨fun member => draws.not_avoids (wanted.drawn var member), wanted.distinct⟩
  · exact List.forall_mem_cons.mpr
      ⟨draws.avoids, fun other member => (wanted.drawn other member).later advances.le⟩
  · refine List.forall_mem_cons.mpr ⟨?_, wanted.isOpen⟩
    cases found : memory.state.assignment.find? var with
    | none => rfl
    | some t => exact absurd (wanted.idle.drawn var t found) draws.not_avoids

end Wanted

section Search

variable {setting : Setting (List Program × Record)} {env other : Environment}
  {room : Nat} {vars : List String} {shape : Shape} {result : TypeTerm}
  {memory : Memory (List Program × Record)} {found : TermSink (List Program × Record)}
  {terms : ApplicativeTerm × List TypeTerm → List ApplicativeTerm}

theorem exhausts_symbol (compares : Compares setting env room)
    (same : env.SameButGhosts other) (wanted : Wanted env room vars shape result memory)
    (handles : Handles setting env room vars.length result found terms) {arity : Nat}
    {name : String} {declared : RefinedType}
    (listed : (env.symbolsOfArity arity).find? name = some (.mono declared))
    (rigid : env.Rigid declared) :
    Exhausts setting (do
      let type := symbolType other name (← naming (Schema.mono declared).instantiate)
      constrain (.subtype other type.shape.refineBottom shape.refineTop)
      let program := Program.symbol name type
      solveIncrementally program
      found other program) memory
      (((TypeTerm.argumentsTo? result vars.length declared.toTerm).map
        fun types => (ApplicativeTerm.symbol name, types)).toList.flatMap terms) := by
  have instantiated : (naming (Schema.mono declared).instantiate :
      Search (List Program × Record) RefinedType) setting memory =
        (.ok (TypeAssignment.apply ∅ declared), memory) := rfl
  apply Exhausts.bind_of_ok instantiated ⟨le_rfl, rfl⟩
  let type := symbolType other name (TypeAssignment.apply ∅ declared)
  have shapes : type.shape = declared.shape :=
    (shape_symbolType other name _).trans ((TypeAssignment.grounded_empty env).shape_apply rigid)
  have left : type.shape.refineBottom.shape = declared.shape :=
    (Shape.shape_refine false type.shape).trans shapes
  have typeTerm := RefinedType.toTerm_of_shape shapes
  have leftTerm := RefinedType.toTerm_of_shape left
  have small := compares.bounded _ name declared listed
  have steps : 3 * type.shape.refineBottom.toTerm.size + result.size ≤ setting.steps := by
    have := compares.enough
    have := wanted.small
    rw [leftTerm]
    omega
  change Exhausts setting (constrain (.subtype other type.shape.refineBottom shape.refineTop) >>=
    fun _ => solveIncrementally (.symbol name type) >>= fun _ => found other (.symbol name type))
    memory _
  rw [← bind_assoc]
  -- The check succeeds exactly if the symbol is listed.
  cases arguments : TypeTerm.argumentsTo? result vars.length declared.toTerm with
  | none =>
      have different : ∀ types, types.length = vars.length →
          type.shape.refineBottom.toTerm ≠ .arrows types result := by
        intro types length equal
        rw [leftTerm] at equal
        cases arguments.symm.trans (TypeTerm.argumentsTo?_eq_some.mpr ⟨length, equal⟩)
      rcases run_check_of_ne compares.incremental wanted.idle wanted.awaits same.boundTypeVars
        (rigid.of_shape left) wanted.distinct wanted.isOpen steps different (.symbol name type)
        with ⟨failure, after, failed, recoverable, quiet⟩
      exact .bind_of_error failed recoverable quiet
  | some types =>
      rcases TypeTerm.argumentsTo?_eq_some.mp arguments with ⟨length, equal⟩
      rcases run_check_of_eq compares.incremental wanted.idle wanted.awaits same.boundTypeVars
        (rigid.of_shape left) wanted.distinct wanted.isOpen steps compares.accepting wanted.drawn
        length (leftTerm.trans equal) (.symbol name type) with ⟨after, ran, quiet, idle⟩
      have handed := handles (.symbol name, types) length other (.symbol name type) after same
        ⟨rfl, typeTerm.trans equal, rigid.of_shape shapes, typeTerm ▸ small⟩ idle
      exact .bind_of_ok ran quiet (by simpa using handed)

theorem exhausts_searchSymbol (compares : Compares setting env room)
    (same : env.SameButGhosts other) (wanted : Wanted env room vars shape result memory)
    (handles : Handles setting env room vars.length result found terms) :
    Exhausts setting (searchSymbol other shape found) memory
      ((env.symbolsTo vars.length result).flatMap terms) := by
  have bucket : other.symbolsOfArity shape.arity =
      env.symbolsOfArity (vars.length + result.arity) := by
    rw [wanted.arity, Environment.symbolsOfArity, same.symbols, Environment.symbolsOfArity]
  unfold searchSymbol Environment.symbolsTo
  rw [bucket, List.filterMap_eq_flatMap_toList, List.flatMap_assoc, List.flatMap_def]
  apply Exhausts.choose rfl
  rw [List.forall₂_map_right_iff, List.forall₂_same]
  rintro ⟨name, schema⟩ member later resumed
  have listed := SortedMap.find?_of_mem_entries member
  rcases compares.plain.mono _ name schema listed with ⟨declared, rfl, _, rigid⟩
  exact exhausts_symbol compares same (wanted.resumed resumed) handles listed rigid

end Search

def ExhaustsTerms (setting : Setting (List Program × Record)) (env : Environment) (room : Nat)
    (depth : Nat) : Prop :=
  ∀ other vars shape result memory found terms, env.SameButGhosts other →
    Wanted env room vars shape result memory →
    Handles setting env room vars.length result found terms →
      Exhausts setting (searchTerm depth other shape found) memory
        ((env.termsTo depth vars.length result).flatMap terms)

section Applications

variable {setting : Setting (List Program × Record)} {env other : Environment}
  {room depth : Nat} {vars : List String} {shape : Shape} {result : TypeTerm}
  {memory : Memory (List Program × Record)} {found : TermSink (List Program × Record)}
  {terms : ApplicativeTerm × List TypeTerm → List ApplicativeTerm}

def applyTo {σ : Type} (found : TermSink σ) (function : Program) (formal : String)
    (expected final : RefinedType) : TermSink σ := fun env argument => do
  constrain (.subtype env argument.type expected)
  solveIncrementally argument
  if expected.isFunction then found env (.app function argument final)
  else
    let ghost ← fresh Stem.ghost
    found (env.addGhost ghost argument.type)
      (.app function argument (RefinedType.renameVar final formal ghost expected))

theorem exhausts_applyTo (compares : Compares setting env room) {count : Nat}
    (handles : Handles setting env room count result found terms)
    {function argument : Program} {formal : String} {expected final : RefinedType}
    {functionTerm argumentTerm : ApplicativeTerm} {types : List TypeTerm}
    (length : types.length = count) (isFunction : function.type = .function formal expected final)
    (functionListed : IsListed env room result (functionTerm, expected.toTerm :: types) function)
    (argumentListed : IsListed env room expected.toTerm (argumentTerm, []) argument)
    (same : env.SameButGhosts other) (idle : memory.Idle env) :
    Exhausts setting (applyTo found function formal expected final other argument) memory
      (terms (.app functionTerm argumentTerm, types)) := by
  have small := functionListed.small
  have rigid := functionListed.rigid
  have type := functionListed.type
  rw [isFunction] at small rigid type
  rw [Skeleton.size_toTerm_function] at small
  have parts := Environment.rigid_function.mp rigid
  have finalTerm : final.toTerm = .arrows types result := by
    rw [Skeleton.toTerm_function, TypeTerm.arrows_cons] at type
    injection type with _ type
    injection type with _ type
    injection type
  have steps : 3 * argument.type.toTerm.size + expected.toTerm.size ≤ setting.steps := by
    have := compares.enough
    rw [argumentListed.type, TypeTerm.arrows_nil]
    omega
  rcases run_check_of_eq compares.incremental idle (.done parts.1) same.boundTypeVars
    argumentListed.rigid .nil (List.forall_mem_nil _) steps compares.accepting
    (List.forall_mem_nil _) rfl argumentListed.type argument with ⟨after, ran, quiet, idleAfter⟩
  have listed (type : RefinedType) (shape : type.shape = final.shape) :
      IsListed env room result (.app functionTerm argumentTerm, types)
        (.app function argument type) := by
    have term := RefinedType.toTerm_of_shape shape
    refine ⟨?_, term.trans finalTerm, parts.2.of_shape shape, ?_⟩
    · rw [Program.applicative?, functionListed.term, argumentListed.term]
      rfl
    · exact (congrArg TypeTerm.size term).trans_le (by omega)
  unfold applyTo
  rw [← bind_assoc]
  apply Exhausts.bind_of_ok ran quiet
  split
  · exact handles _ length other _ after same (listed final rfl) idleAfter
  -- The ghost is no symbol, and renaming to it leaves the shape as it is.
  · apply Exhausts.fresh_bind
    exact handles _ length _ _ _ (same.addGhost _ _)
      (listed _ (RefinedType.shape_renameVar _ _ _ _)) (idleAfter.resumed ⟨rfl, Nat.le_succ _⟩)

/-- A function that has been found takes every term that is listed for its argument. -/
theorem exhausts_arguments (compares : Compares setting env room)
    (part : ExhaustsTerms setting env room depth) {count : Nat}
    (handles : Handles setting env room count result found terms) {function : Program}
    {formal : String} {expected final : RefinedType} {functionTerm : ApplicativeTerm}
    {types : List TypeTerm} (length : types.length = count)
    (isFunction : function.type = .function formal expected final)
    (listed : IsListed env room result (functionTerm, expected.toTerm :: types) function)
    (same : env.SameButGhosts other) (idle : memory.Idle env) :
    Exhausts setting (do
      let argumentShape := (← applyAssignment expected).shape
      searchTerm depth other argumentShape (applyTo found function formal expected final)) memory
      ((Environment.applicationsOf (env.termsTo depth 0)
        (functionTerm, expected.toTerm :: types)).flatMap terms) := by
  have rigid := listed.rigid
  have small := listed.small
  rw [isFunction] at rigid small
  rw [Skeleton.size_toTerm_function] at small
  have expectedRigid := (Environment.rigid_function.mp rigid).1
  have applied : (applyAssignment expected : Search (List Program × Record) RefinedType) setting
      memory = (.ok (memory.state.assignment.apply expected), memory) := rfl
  have wanted : Wanted env room [] (memory.state.assignment.apply expected).shape
      expected.toTerm memory :=
    .done idle expectedRigid (idle.grounded.shape_apply expectedRigid).symm (by omega)
  have isList : (Environment.applicationsOf (env.termsTo depth 0)
      (functionTerm, expected.toTerm :: types)).flatMap terms =
        (env.termsTo depth 0 expected.toTerm).flatMap
          fun entry => terms (.app functionTerm entry.1, types) :=
    List.flatMap_map _ _ _
  rw [isList]
  apply Exhausts.bind_of_ok applied ⟨le_rfl, rfl⟩
  apply part other [] _ expected.toTerm _ _ _ same wanted
  rintro ⟨argument, none⟩ empty inner program later sameInner argumentListed idleLater
  rw [List.length_nil, List.length_eq_zero_iff] at empty
  subst empty
  exact exhausts_applyTo compares handles length isFunction listed argumentListed sameInner
    idleLater

theorem exhausts_searchApplicationWith (compares : Compares setting env room)
    (part : ExhaustsTerms setting env room depth) (same : env.SameButGhosts other)
    (wanted : Wanted env room vars shape result memory)
    (handles : Handles setting env room vars.length result found terms) :
    Exhausts setting (searchApplicationWith (searchTerm depth) other shape found) memory
      ((if vars.length + result.arity = env.maxArity then []
        else (env.termsTo depth (vars.length + 1) result).flatMap
          (Environment.applicationsOf (env.termsTo depth 0))).flatMap terms) := by
  have isMaximal : shape.arity = other.maxArity ↔
      vars.length + result.arity = env.maxArity := by
    rw [wanted.arity, Environment.maxArity, same.symbols, Environment.maxArity]
  unfold searchApplicationWith
  by_cases maximal : shape.arity = other.maxArity
  -- No symbol takes one argument more.
  · rw [if_pos maximal, if_pos (isMaximal.mp maximal)]
    exact .fail rfl
  · rw [if_neg maximal, if_neg (isMaximal.not.mp maximal), List.flatMap_assoc]
    apply Exhausts.fresh_bind
    apply Exhausts.fresh_bind
    apply part other (_ :: vars) _ result _ _ _ same
      (wanted.function compares.plain.undrawn _ (Nat.lt_add_of_pos_right (Nat.succ_pos 1)))
    rintro ⟨function, types⟩ length scope program later sameScope listed idle
    cases types with
    | nil => cases length
    | cons expectedTerm rest =>
        have type := listed.type
        cases isType : program.type with
        | scalar base arguments refinement =>
            rw [isType] at type
            have arities := congrArg TypeTerm.arity type
            rw [Skeleton.arity_toTerm, TypeTerm.arity_arrows] at arities
            simp only [Skeleton.arity, List.length_cons] at arities
            omega
        | function formal expected final =>
            rw [isType, Skeleton.toTerm_function, TypeTerm.arrows_cons] at type
            injection type with _ types
            injection types with isExpected _
            subst isExpected
            dsimp only
            rw [isType]
            exact exhausts_arguments compares part handles (Nat.succ_inj.mp length) isType listed
              sameScope idle

/-- Symbols come before applications, at every depth. -/
theorem exhausts_searchTerm (compares : Compares setting env room) (depth : Nat) :
    ExhaustsTerms setting env room depth := by
  induction depth with
  | zero =>
      intro other vars shape result memory found terms same wanted handles
      have options : Exhausts setting (searchTerm 0 other shape found) memory
          [(env.symbolsTo vars.length result).flatMap terms, []].flatten :=
        .choose rfl <| .cons
          (fun later resumed =>
            exhausts_searchSymbol compares same (wanted.resumed resumed) handles)
          (.cons (fun later resumed => .fail rfl) .nil)
      simpa [Environment.termsTo] using options
  | succ depth induction =>
      intro other vars shape result memory found terms same wanted handles
      have options : Exhausts setting (searchTerm (depth + 1) other shape found) memory
          [(env.symbolsTo vars.length result).flatMap terms, _].flatten :=
        .choose rfl <| .cons
          (fun later resumed =>
            exhausts_searchSymbol compares same (wanted.resumed resumed) handles)
          (.cons (fun later resumed =>
            exhausts_searchApplicationWith compares induction same (wanted.resumed resumed) handles)
            .nil)
      simpa [Environment.termsTo] using options

end Applications

end Search

end Inhabit
