import Inhabit.Proofs.Naming.Scopes

/-! Types one of whose arguments is renamed. -/

namespace Inhabit

open Skeleton RefinedType

/-- The name of one function's argument is replaced, there and where the function's
result speaks of it. -/
inductive RefinedType.RenamesArgument (new : String) : RefinedType → RefinedType → Prop where
  | here (name : String) (argument result : RefinedType) :
      RenamesArgument new (.function name argument result)
        (.function new argument (result.rename name new))
  | argument (name : String) {argument other : RefinedType} (result : RefinedType)
      (inside : RenamesArgument new argument other) :
      RenamesArgument new (.function name argument result) (.function name other result)
  | result (name : String) (argument : RefinedType) {result other : RefinedType}
      (inside : RenamesArgument new result other) :
      RenamesArgument new (.function name argument result) (.function name argument other)
  | scalar (base : BaseType) (before : List RefinedType) {t other : RefinedType}
      (after : List RefinedType) (refinement : Formula)
      (inside : RenamesArgument new t other) :
      RenamesArgument new (.scalar base (before ++ t :: after) refinement)
        (.scalar base (before ++ other :: after) refinement)

/-! ## Plain types -/

def Environment.Rigid (env : Environment) (t : RefinedType) : Prop :=
  ∀ name ∈ t.typeVarOccurrences, env.isBound name = true

instance (env : Environment) (t : RefinedType) : Decidable (env.Rigid t) :=
  inferInstanceAs (Decidable (∀ name ∈ t.typeVarOccurrences, env.isBound name = true))

namespace Environment

variable {env : Environment}

theorem rigid_scalar {base : BaseType} {arguments : List RefinedType}
    {refinement : Formula} :
    env.Rigid (.scalar base arguments refinement) ↔
      (∀ name, base = .typeVar name → env.isBound name = true) ∧
        ∀ t ∈ arguments, env.Rigid t := by
  have inside : (∀ name ∈ arguments.flatMap typeVarOccurrences, env.isBound name = true) ↔
      ∀ t ∈ arguments, env.Rigid t := by
    simp only [List.mem_flatMap]
    exact ⟨fun holds t member name occurs => holds name ⟨t, member, occurs⟩,
      fun holds name ⟨t, member, occurs⟩ => holds t member name occurs⟩
  rw [← inside, Rigid]
  cases base with
  | typeVar name => simp [typeVarOccurrences, typeVarOccurrencesAll_eq_flatMap]
  | bool | int | data _ => simp [typeVarOccurrences, typeVarOccurrencesAll_eq_flatMap]

theorem rigid_function {name : String} {argument result : RefinedType} :
    env.Rigid (.function name argument result) ↔ env.Rigid argument ∧ env.Rigid result := by
  unfold Rigid
  rw [typeVarOccurrences, List.forall_mem_append]

theorem rigid_substitute (substitution : Substitution) (t : RefinedType) :
    env.Rigid (t.substitute substitution) ↔ env.Rigid t := by
  induction t using Skeleton.induction generalizing substitution with
  | scalar base arguments refinement induction =>
      rw [substitute_scalar, rigid_scalar, rigid_scalar, List.forall_mem_map]
      exact and_congr_right' (forall₂_congr fun t member => induction t member substitution)
  | function name argument result first second =>
      rw [RefinedType.substitute, rigid_function, rigid_function, first, second]

theorem rigid_renameVar (env : Environment) (old new : String) (oldType t : RefinedType) :
    env.Rigid (t.renameVar old new oldType) ↔ env.Rigid t := by
  cases oldType with
  | scalar base _ _ => exact rigid_substitute _ t
  | function _ _ _ => rfl

theorem rigid_rename (old new : String) (t : RefinedType) :
    env.Rigid (t.rename old new) ↔ env.Rigid t := by
  induction t using Skeleton.induction with
  | scalar base arguments refinement induction =>
      rw [rename_scalar, rigid_scalar, rigid_scalar, List.forall_mem_map]
      exact and_congr_right' (forall₂_congr fun t member => induction t member)
  | function name argument result first second =>
      rw [rename_function, rigid_function, rigid_function, first]
      split
      · rfl
      · rw [second]

theorem rigid_renamesArgument {new : String} {t other : RefinedType}
    (renames : t.RenamesArgument new other) : env.Rigid other ↔ env.Rigid t := by
  induction renames with
  | here name argument result => rw [rigid_function, rigid_function, rigid_rename]
  | argument name result _ induction => rw [rigid_function, rigid_function, induction]
  | result name argument _ induction => rw [rigid_function, rigid_function, induction]
  | scalar base before after refinement _ induction =>
      simp only [rigid_scalar, List.forall_mem_append, List.forall_mem_cons, induction]

theorem freeVar?_of_rigid {t : RefinedType} (rigid : env.Rigid t) : env.freeVar? t = none := by
  cases free : env.freeVar? t with
  | none => rfl
  | some name =>
      rcases freeVar?_eq_some.mp free with ⟨⟨refinement, rfl⟩, notBound⟩
      have bound := rigid name List.mem_cons_self
      rw [bound] at notBound
      cases notBound

end Environment

namespace RefinedType

/-- The type has no unknowns and no free type variables, and it does not use the name. -/
structure Plain (env : Environment) (new : String) (t : RefinedType) : Prop where
  known : t.Known
  rigid : env.Rigid t
  notFree : new ∉ t.freeVars
  notArgument : new ∉ t.argumentNames

namespace Plain

variable {env : Environment} {new : String}

theorem scalarArgument {base : BaseType} {arguments : List RefinedType}
    {refinement : Formula} (plain : Plain env new (.scalar base arguments refinement))
    {t : RefinedType} (member : t ∈ arguments) : Plain env new t where
  known := (known_scalar.mp plain.known).2 t member
  rigid := (Environment.rigid_scalar.mp plain.rigid).2 t member
  notFree inside := plain.notFree (mem_freeVars_scalar.mpr (.inr ⟨t, member, inside⟩))
  notArgument inside := by
    apply plain.notArgument
    rw [argumentNames_scalar]
    exact List.mem_flatMap.mpr ⟨t, member, inside⟩

theorem scalarFewer {base : BaseType} {arguments some : List RefinedType}
    {refinement : Formula} (plain : Plain env new (.scalar base arguments refinement))
    (fewer : some ⊆ arguments) : Plain env new (.scalar base some refinement) where
  known := known_scalar.mpr ((known_scalar.mp plain.known).imp_right
    fun all t member => all t (fewer member))
  rigid := Environment.rigid_scalar.mpr ((Environment.rigid_scalar.mp plain.rigid).imp_right
    fun all t member => all t (fewer member))
  notFree inside := by
    apply plain.notFree
    rw [mem_freeVars_scalar] at inside ⊢
    exact inside.imp_right fun ⟨t, member, free⟩ => ⟨t, fewer member, free⟩
  notArgument inside := by
    apply plain.notArgument
    rw [argumentNames_scalar, List.mem_flatMap] at inside ⊢
    rcases inside with ⟨t, member, isName⟩
    exact ⟨t, fewer member, isName⟩

section Function

variable {name : String} {argument result : RefinedType}
  (plain : Plain env new (.function name argument result))

include plain

theorem ne : name ≠ new := by
  rintro rfl
  exact plain.notArgument List.mem_cons_self

theorem functionArgument : Plain env new argument where
  known := (known_function.mp plain.known).1
  rigid := (Environment.rigid_function.mp plain.rigid).1
  notFree inside := plain.notFree (mem_freeVars_function.mpr (.inl inside))
  notArgument inside :=
    plain.notArgument (List.mem_cons_of_mem _ (List.mem_append_left _ inside))

theorem functionResult : Plain env new result where
  known := (known_function.mp plain.known).2
  rigid := (Environment.rigid_function.mp plain.rigid).2
  notFree inside :=
    plain.notFree (mem_freeVars_function.mpr (.inr ⟨inside, Ne.symm plain.ne⟩))
  notArgument inside :=
    plain.notArgument (List.mem_cons_of_mem _ (List.mem_append_right _ inside))

end Function

theorem substitute {t : RefinedType} (plain : Plain env new t) {x y : String}
    (sort : LogicSort) (different : y ≠ new) :
    Plain env new (t.substitute [(x, .var sort y)]) where
  known := plain.known.substitute sort
  rigid := (Environment.rigid_substitute _ t).mpr plain.rigid
  notFree inside := (mem_freeVars_substitute plain.known inside).elim
    (fun equal => different equal.symm) fun free => plain.notFree free.1
  notArgument inside := plain.notArgument (by rwa [argumentNames_substitute] at inside)

theorem renameVar {t : RefinedType} (plain : Plain env new t) (x : String) {y : String}
    (type : RefinedType) (different : y ≠ new) : Plain env new (t.renameVar x y type) := by
  cases type with
  | scalar base _ _ => exact plain.substitute base.sort different
  | function _ _ _ => exact plain

theorem bind {t : RefinedType} (plain : Plain env new t) (name : String)
    (type : RefinedType) : Plain (env.addVariable name type) new t where
  known := plain.known
  rigid := plain.rigid
  notFree := plain.notFree
  notArgument := plain.notArgument

end Plain

end RefinedType

/-! ## The types of which an argument is renamed -/

namespace RefinedType.RenamesArgument

variable {new : String} {t other : RefinedType}

theorem isScalar (renames : t.RenamesArgument new other) : other.isScalar = t.isScalar := by
  cases renames <;> rfl

theorem known (renames : t.RenamesArgument new other) (known : t.Known) : other.Known := by
  induction renames with
  | here name argument result =>
      rw [known_function] at known ⊢
      exact ⟨known.1, known.2.rename⟩
  | argument name result _ induction =>
      rw [known_function] at known ⊢
      exact ⟨induction known.1, known.2⟩
  | result name argument _ induction =>
      rw [known_function] at known ⊢
      exact ⟨known.1, induction known.2⟩
  | scalar base before after refinement _ induction =>
      simp only [known_scalar, List.forall_mem_append, List.forall_mem_cons] at known ⊢
      exact ⟨known.1, known.2.1, induction known.2.2.1, known.2.2.2⟩

theorem substitute {env : Environment} {x y : String} {sort : LogicSort}
    (renames : t.RenamesArgument new other) (plain : Plain env new t)
    (notNew : x ≠ new) (apart : t.Substitutable x y) :
    (t.substitute [(x, .var sort y)]).RenamesArgument new
      (other.substitute [(x, .var sort y)]) := by
  induction renames with
  | here name argument result =>
      have resultKnown := plain.functionResult.known
      rw [substitute_function resultKnown, substitute_function resultKnown.rename,
        if_neg (Ne.symm notNew)]
      suffices same : (result.rename name new).substitute [(x, .var sort y)] =
          (if name = x then result else result.substitute [(x, .var sort y)]).rename name new by
        rw [same]
        exact .here _ _ _
      by_cases isReplaced : name = x
      · rw [if_pos isReplaced]
        apply substitute_of_not_mem resultKnown.rename
        intro inside
        rcases mem_freeVars_rename resultKnown inside with equal | free
        · exact notNew equal
        · exact free.2 isReplaced.symm
      · rw [if_neg isReplaced]
        rcases apart.2.resolve_left isReplaced with ⟨noCapture, _⟩
        by_cases isOther : name = y
        · have notFree := noCapture isOther
          rw [substitute_of_not_mem resultKnown notFree]
          apply substitute_of_not_mem resultKnown.rename
          intro inside
          rcases mem_freeVars_rename resultKnown inside with equal | free
          · exact notNew equal
          · exact notFree free.1
        · exact substitute_rename_comm resultKnown (Ne.symm isReplaced) notNew
            (Ne.symm isOther)
  | @argument name argument otherArgument result inside induction =>
      have resultKnown := plain.functionResult.known
      rw [substitute_function resultKnown, substitute_function resultKnown]
      exact .argument name _ (induction plain.functionArgument apart.1)
  | @result name argument result otherResult inside induction =>
      have resultKnown := plain.functionResult.known
      rw [substitute_function resultKnown, substitute_function (inside.known resultKnown)]
      by_cases isReplaced : name = x
      · rw [if_pos isReplaced, if_pos isReplaced]
        exact .result name _ inside
      · rw [if_neg isReplaced, if_neg isReplaced]
        exact .result name _
          (induction plain.functionResult (apart.2.resolve_left isReplaced).2)
  | @scalar base before t other after refinement inside induction =>
      simp only [substitute_scalar, List.map_append, List.map_cons]
      have member : t ∈ before ++ t :: after :=
        List.mem_append_right before List.mem_cons_self
      exact .scalar base _ _ _ (induction (plain.scalarArgument member)
        (substitutable_scalar.mp apart _ member))

end RefinedType.RenamesArgument

end Inhabit
