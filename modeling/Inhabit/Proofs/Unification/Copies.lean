import Inhabit.Proofs.Unification.FreshCopy

/-! The form of a fresh copy: the skeleton of the type, with new names where the type had
variables and refinements. -/

namespace Inhabit

/-! ## New names -/

namespace NameSupply

def Issues (stem : String) (before after : NameSupply) (name : String) : Prop :=
  ∃ number, before.issued ≤ number ∧ number < after.issued ∧
    name = stem ++ toString number

theorem issues_next (stem : String) (supply : NameSupply) :
    Issues stem supply ⟨supply.issued + 1⟩ (stem ++ toString supply.issued) :=
  ⟨supply.issued, Nat.le_refl _, Nat.lt_succ_self _, rfl⟩

theorem Issues.mono {stem name : String} {before middle last after : NameSupply}
    (issued : Issues stem middle last name) (start : before.issued ≤ middle.issued)
    (stop : last.issued ≤ after.issued) : Issues stem before after name := by
  obtain ⟨number, late, early, equal⟩ := issued
  exact ⟨number, start.trans late, early.trans_le stop, equal⟩

theorem Issues.ne {stem first second : String} {before middle after : NameSupply}
    (early : Issues stem before middle first) (late : Issues stem middle after second) :
    first ≠ second := by
  obtain ⟨number, _, within, rfl⟩ := early
  obtain ⟨other, beyond, _, rfl⟩ := late
  intro equal
  have := numbered_injective equal
  omega

structure IssuesAll (stem : String) (before after : NameSupply) (names : List String) :
    Prop where
  nodup : names.Nodup
  issued : ∀ name ∈ names, Issues stem before after name

namespace IssuesAll

variable {stem : String} {before middle after : NameSupply} {names others : List String}

theorem nil : IssuesAll stem before after [] := ⟨List.nodup_nil, List.forall_mem_nil _⟩

theorem next (stem : String) (supply : NameSupply) :
    IssuesAll stem supply ⟨supply.issued + 1⟩ [stem ++ toString supply.issued] :=
  ⟨List.nodup_singleton _, List.forall_mem_singleton.mpr (issues_next stem supply)⟩

theorem append (early : IssuesAll stem before middle names)
    (late : IssuesAll stem middle after others) (start : before.issued ≤ middle.issued)
    (stop : middle.issued ≤ after.issued) : IssuesAll stem before after (names ++ others) where
  nodup := List.nodup_append.mpr ⟨early.nodup, late.nodup, fun name inFirst other inSecond =>
    (early.issued name inFirst).ne (late.issued other inSecond)⟩
  issued := List.forall_mem_append.mpr
    ⟨fun name member => (early.issued name member).mono (Nat.le_refl _) stop,
      fun name member => (late.issued name member).mono start (Nat.le_refl _)⟩

theorem later (early : IssuesAll stem before middle names)
    (stop : middle.issued ≤ after.issued) : IssuesAll stem before after names :=
  ⟨early.nodup, fun name member => (early.issued name member).mono (Nat.le_refl _) stop⟩

end IssuesAll

end NameSupply

/-! ## Copies -/

mutual

/-- The second type has the skeleton of the first one, with a variable for every occurrence
of a free variable and an unknown for the refinement of every other scalar, both listed in
the order of their positions. -/
inductive Environment.Copies (env : Environment) :
    RefinedType → RefinedType → (typeVars unknowns : List String) → Prop where
  | free {t : RefinedType} {name : String} (isFree : env.freeVar? t = some name)
      (new : String) : Copies env t (.atom (.typeVar new) .top) [new] []
  | scalar {base : BaseType} {arguments copies : List RefinedType} {refinement : Formula}
      {typeVars unknowns : List String}
      (rigid : env.freeVar? (.scalar base arguments refinement) = none)
      (inside : CopiesAll env arguments copies typeVars unknowns) (new : String) :
      Copies env (.scalar base arguments refinement) (.scalar base copies (.unknown [] new))
        typeVars (unknowns ++ [new])
  | function (name : String) {argument result copy copyResult : RefinedType}
      {typeVars unknowns others otherUnknowns : List String}
      (first : Copies env argument copy typeVars unknowns)
      (second : Copies env result copyResult others otherUnknowns) :
      Copies env (.function name argument result) (.function name copy copyResult)
        (typeVars ++ others) (unknowns ++ otherUnknowns)

inductive Environment.CopiesAll (env : Environment) :
    List RefinedType → List RefinedType → (typeVars unknowns : List String) → Prop where
  | nil : CopiesAll env [] [] [] []
  | cons {t copy : RefinedType} {rest copies : List RefinedType}
      {typeVars unknowns others otherUnknowns : List String}
      (head : Copies env t copy typeVars unknowns)
      (tail : CopiesAll env rest copies others otherUnknowns) :
      CopiesAll env (t :: rest) (copy :: copies) (typeVars ++ others)
        (unknowns ++ otherUnknowns)

end

namespace Environment

variable (env : Environment) (supply : NameSupply)

theorem issued_le_freshCopies (ts : List RefinedType) :
    supply.issued ≤ ((env.freshCopies ts).run supply).2.issued := by
  induction ts generalizing supply with
  | nil => exact Nat.le_refl _
  | cons t rest induction =>
      rw [run_freshCopies_cons]
      exact (env.issued_le_freshCopy supply t).trans (induction _)

private theorem exists_copiesAll {ts : List RefinedType}
    (each : ∀ t ∈ ts, ∀ supply, ∃ typeVars unknowns,
      env.Copies t ((env.freshCopy t).run supply).1 typeVars unknowns ∧
      NameSupply.IssuesAll Stem.typeVar supply ((env.freshCopy t).run supply).2 typeVars ∧
      NameSupply.IssuesAll Stem.unknown supply ((env.freshCopy t).run supply).2 unknowns) :
    ∃ typeVars unknowns,
      env.CopiesAll ts ((env.freshCopies ts).run supply).1 typeVars unknowns ∧
      NameSupply.IssuesAll Stem.typeVar supply ((env.freshCopies ts).run supply).2 typeVars ∧
      NameSupply.IssuesAll Stem.unknown supply ((env.freshCopies ts).run supply).2 unknowns := by
  induction ts generalizing supply with
  | nil => exact ⟨[], [], .nil, .nil, .nil⟩
  | cons head rest induction =>
      obtain ⟨typeVars, unknowns, copied, typeVarsNew, unknownsNew⟩ :=
        each head List.mem_cons_self supply
      obtain ⟨others, otherUnknowns, restCopied, othersNew, otherUnknownsNew⟩ :=
        induction ((env.freshCopy head).run supply).2
          fun t member => each t (List.mem_cons_of_mem _ member)
      have start := env.issued_le_freshCopy supply head
      have stop := env.issued_le_freshCopies ((env.freshCopy head).run supply).2 rest
      rw [run_freshCopies_cons]
      exact ⟨_, _, .cons copied restCopied, typeVarsNew.append othersNew start stop,
        unknownsNew.append otherUnknownsNew start stop⟩

theorem copies_freshCopy (t : RefinedType) :
    ∃ typeVars unknowns,
      env.Copies t ((env.freshCopy t).run supply).1 typeVars unknowns ∧
      NameSupply.IssuesAll Stem.typeVar supply ((env.freshCopy t).run supply).2 typeVars ∧
      NameSupply.IssuesAll Stem.unknown supply ((env.freshCopy t).run supply).2 unknowns := by
  induction t using Skeleton.induction generalizing supply with
  | function name argument result first second =>
      obtain ⟨typeVars, unknowns, copied, typeVarsNew, unknownsNew⟩ := first supply
      obtain ⟨others, otherUnknowns, resultCopied, othersNew, otherUnknownsNew⟩ :=
        second ((env.freshCopy argument).run supply).2
      have start := env.issued_le_freshCopy supply argument
      have stop := env.issued_le_freshCopy ((env.freshCopy argument).run supply).2 result
      rw [run_freshCopy_function]
      exact ⟨_, _, .function name copied resultCopied, typeVarsNew.append othersNew start stop,
        unknownsNew.append otherUnknownsNew start stop⟩
  | scalar base arguments refinement induction =>
      cases free : env.freeVar? (.scalar base arguments refinement) with
      | some name =>
          rw [run_freshCopy_of_free env supply free]
          exact ⟨_, _, .free free _, .next Stem.typeVar supply, .nil⟩
      | none =>
          obtain ⟨typeVars, unknowns, copied, typeVarsNew, unknownsNew⟩ :=
            env.exists_copiesAll supply fun t member supply => induction t member supply
          have start := env.issued_le_freshCopies supply arguments
          rw [run_freshCopy_scalar env supply free]
          exact ⟨_, _, .scalar free copied _, typeVarsNew.later (Nat.le_succ _),
            unknownsNew.append (.next Stem.unknown _) start (Nat.le_succ _)⟩

end Environment

end Inhabit
