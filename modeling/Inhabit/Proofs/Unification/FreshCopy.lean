import Inhabit.Proofs.Unification.Resolution
import Mathlib

/-! Names that are still to come, and what a fresh copy of a type has in common
with the type: a substitution that is told what the new variables stand for makes
the two equal. -/

namespace Inhabit

namespace NameSupply

/-- The supply will not hand out this name for a type variable any more. -/
def Avoids (supply : NameSupply) (name : String) : Prop :=
  ∀ number, supply.issued ≤ number → name ≠ Stem.typeVar ++ toString number

def Draws (before after : NameSupply) (name : String) : Prop :=
  ∃ number, before.issued ≤ number ∧ number < after.issued ∧
    name = Stem.typeVar ++ toString number

theorem numbered_injective {stem : String} {first second : Nat}
    (equal : stem ++ toString first = stem ++ toString second) : first = second :=
  Nat.repr_injective ((String.append_right_inj _).mp equal)

theorem avoids_of_not_prefix {name : String}
    (different : ¬ Stem.typeVar.toList <+: name.toList) (supply : NameSupply) :
    supply.Avoids name := by
  rintro number _ rfl
  exact different ⟨_, String.toList_append.symm⟩

theorem forall_avoids {names : List String}
    (different : ∀ name ∈ names, ¬ Stem.typeVar.toList <+: name.toList)
    (supply : NameSupply) : ∀ name ∈ names, supply.Avoids name :=
  fun name member => avoids_of_not_prefix (different name member) supply

theorem Avoids.later {before after : NameSupply} {name : String}
    (avoids : before.Avoids name) (advances : before.issued ≤ after.issued) :
    after.Avoids name :=
  fun number late => avoids number (advances.trans late)

theorem Avoids.not_draws {before middle after : NameSupply} {name : String}
    (avoids : before.Avoids name) (advances : before.issued ≤ middle.issued) :
    ¬ middle.Draws after name := by
  rintro ⟨number, early, _, equal⟩
  exact avoids number (advances.trans early) equal

theorem Draws.avoids {before after : NameSupply} {name : String}
    (drawn : before.Draws after name) : after.Avoids name := by
  obtain ⟨number, _, early, rfl⟩ := drawn
  intro other late equal
  have := numbered_injective equal
  omega

theorem Draws.not_avoids {before after : NameSupply} {name : String}
    (drawn : before.Draws after name) : ¬ before.Avoids name := by
  obtain ⟨number, late, _, equal⟩ := drawn
  exact fun avoids => avoids number late equal

theorem Draws.mono {before middle last after : NameSupply} {name : String}
    (drawn : middle.Draws last name) (start : before.issued ≤ middle.issued)
    (stop : last.issued ≤ after.issued) : before.Draws after name := by
  obtain ⟨number, late, early, equal⟩ := drawn
  exact ⟨number, start.trans late, early.trans_le stop, equal⟩

end NameSupply

/-- `copies` are `originals` with every variable that the scope leaves free
replaced by a new one. -/
structure CopiesTerms (env : Environment) (before after : NameSupply)
    (originals copies : List TypeTerm) : Prop where
  advances : before.issued ≤ after.issued
  occurs : ∀ copy ∈ copies, ∀ name ∈ copy.vars,
    (env.isBound name ∧ ∃ original ∈ originals, name ∈ original.vars) ∨
      before.Draws after name
  kinds : (∀ original ∈ originals, original.WellKinded) →
    ∀ copy ∈ copies, copy.WellKinded
  unifies : ∀ unifier : String → TypeTerm,
    (∀ original ∈ originals, ∀ name ∈ original.vars, before.Avoids name) →
      ∃ extension : String → TypeTerm,
        (∀ name, ¬ before.Draws after name → extension name = unifier name) ∧
        copies.map (TypeTerm.substitute extension) =
          originals.map (TypeTerm.substitute unifier)

namespace CopiesTerms

variable {env : Environment} {before middle after : NameSupply}
  {original copy : TypeTerm} {originals copies : List TypeTerm}

theorem nil : CopiesTerms env before before [] [] where
  advances := Nat.le_refl _
  occurs := nofun
  kinds := nofun
  unifies := fun unifier _ => ⟨unifier, fun _ _ => rfl, rfl⟩

theorem later (copied : CopiesTerms env before middle originals copies)
    (advances : middle.issued ≤ after.issued) :
    CopiesTerms env before after originals copies where
  advances := copied.advances.trans advances
  occurs copy member name inside :=
    (copied.occurs copy member name inside).imp_right
      fun drawn => drawn.mono (Nat.le_refl _) advances
  kinds := copied.kinds
  unifies unifier avoided := by
    obtain ⟨extension, agrees, equal⟩ := copied.unifies unifier avoided
    exact ⟨extension, fun name undrawn => agrees name fun drawn =>
      undrawn (drawn.mono (Nat.le_refl _) advances), equal⟩

theorem cons (head : CopiesTerms env before middle [original] [copy])
    (rest : CopiesTerms env middle after originals copies) :
    CopiesTerms env before after (original :: originals) (copy :: copies) where
  advances := head.advances.trans rest.advances
  occurs := by
    intro other member name inside
    rcases List.mem_cons.mp member with rfl | member
    · refine (head.occurs other (by simp) name inside).imp ?_
        fun drawn => drawn.mono (Nat.le_refl _) rest.advances
      rintro ⟨bound, first, isFirst, occurs⟩
      rw [List.mem_singleton] at isFirst
      exact ⟨bound, first, by simp [isFirst], occurs⟩
    · refine (rest.occurs other member name inside).imp ?_
        fun drawn => drawn.mono head.advances (Nat.le_refl _)
      rintro ⟨bound, first, isLater, occurs⟩
      exact ⟨bound, first, List.mem_cons_of_mem _ isLater, occurs⟩
  kinds := by
    intro kinded other member
    rcases List.mem_cons.mp member with rfl | member
    · exact head.kinds (by simpa using kinded original (by simp)) _ (by simp)
    · exact rest.kinds (fun first isLater => kinded first (List.mem_cons_of_mem _ isLater))
        other member
  unifies := by
    intro unifier avoided
    have avoidedHead : ∀ name ∈ original.vars, before.Avoids name :=
      avoided original (by simp)
    have avoidedRest : ∀ other ∈ originals, ∀ name ∈ other.vars, before.Avoids name :=
      fun other member => avoided other (List.mem_cons_of_mem _ member)
    obtain ⟨first, firstAgrees, firstEqual⟩ := head.unifies unifier (by simpa)
    obtain ⟨second, secondAgrees, secondEqual⟩ := rest.unifies first
      fun other member name inside =>
        (avoidedRest other member name inside).later head.advances
    refine ⟨second, ?_, ?_⟩
    · intro name undrawn
      rw [secondAgrees name fun drawn =>
          undrawn (drawn.mono head.advances (Nat.le_refl _)),
        firstAgrees name fun drawn =>
          undrawn (drawn.mono (Nat.le_refl _) rest.advances)]
    · -- The second extension changes nothing in the first copy, and the first
      -- one nothing in the remaining originals.
      have copyKept : copy.substitute second = copy.substitute first := by
        refine TypeTerm.substitute_congr fun name inside => secondAgrees name ?_
        rcases head.occurs copy (by simp) name inside with ⟨_, other, isFirst, occurs⟩ | drawn
        · rw [List.mem_singleton] at isFirst
          subst isFirst
          exact (avoidedHead name occurs).not_draws head.advances
        · exact drawn.avoids.not_draws (Nat.le_refl _)
      have originalsKept : originals.map (TypeTerm.substitute first) =
          originals.map (TypeTerm.substitute unifier) :=
        List.map_congr_left fun other member =>
          TypeTerm.substitute_congr fun name inside => firstAgrees name
            ((avoidedRest other member name inside).not_draws (Nat.le_refl _))
      rw [List.map_cons, List.map_cons, copyKept, secondEqual, originalsKept]
      exact congrArg (· :: _) (List.singleton_inj.mp firstEqual)

theorem node (symbol : TypeSymbol)
    (copied : CopiesTerms env before after originals copies) :
    CopiesTerms env before after [.node symbol originals] [.node symbol copies] where
  advances := copied.advances
  occurs := by
    intro other member name inside
    rw [List.mem_singleton] at member
    rw [member, TypeTerm.vars_node, List.mem_flatMap] at inside
    rcases inside with ⟨copy, member, inside⟩
    refine (copied.occurs copy member name inside).imp_left ?_
    rintro ⟨bound, original, member, occurs⟩
    refine ⟨bound, _, List.mem_singleton_self _, ?_⟩
    rw [TypeTerm.vars_node]
    exact List.mem_flatMap.mpr ⟨original, member, occurs⟩
  kinds := by
    intro kinded other member
    rw [List.mem_singleton] at member
    obtain ⟨proper, inner⟩ :=
      TypeTerm.wellKinded_node_iff.mp (kinded _ (List.mem_singleton_self _))
    rw [member]
    exact .node proper (copied.kinds inner)
  unifies := by
    intro unifier avoided
    obtain ⟨extension, agrees, equal⟩ := copied.unifies unifier
      fun original member name inside => avoided _ (List.mem_singleton_self _) name (by
        rw [TypeTerm.vars_node]
        exact List.mem_flatMap.mpr ⟨original, member, inside⟩)
    exact ⟨extension, agrees, by simp [equal]⟩

theorem free (env : Environment) (before : NameSupply) (name : String) :
    CopiesTerms env before ⟨before.issued + 1⟩ [.var name]
      [.var (Stem.typeVar ++ toString before.issued)] where
  advances := Nat.le_succ _
  occurs := by
    intro copy member other inside
    rw [List.mem_singleton] at member
    rw [member, TypeTerm.vars_var, List.mem_singleton] at inside
    exact .inr ⟨before.issued, Nat.le_refl _, Nat.lt_succ_self _, inside⟩
  kinds := by
    intro _ copy member
    rw [List.mem_singleton] at member
    rw [member]
    exact .var _
  unifies := by
    intro unifier _
    refine ⟨fun other => if other = Stem.typeVar ++ toString before.issued then
      unifier name else unifier other, ?_, by simp⟩
    intro other undrawn
    refine if_neg fun equal => undrawn ?_
    exact ⟨before.issued, Nat.le_refl _, Nat.lt_succ_self _, equal⟩

theorem bound (before : NameSupply) {name : String} (isBound : env.isBound name) :
    CopiesTerms env before before [.var name] [.var name] where
  advances := Nat.le_refl _
  occurs := by
    intro copy member other inside
    rw [List.mem_singleton] at member
    rw [member, TypeTerm.vars_var, List.mem_singleton] at inside
    exact .inl ⟨inside ▸ isBound, .var name, by simp, by simp [inside]⟩
  kinds := id
  unifies := fun unifier _ => ⟨unifier, fun _ _ => rfl, rfl⟩

end CopiesTerms

namespace Environment

variable (env : Environment) (supply : NameSupply)

theorem run_freshCopy_of_free {t : RefinedType} {name : String}
    (free : env.freeVar? t = some name) :
    (env.freshCopy t).run supply =
      (.atom (.typeVar (Stem.typeVar ++ toString supply.issued)) .top,
        ⟨supply.issued + 1⟩) := by
  obtain ⟨⟨refinement, rfl⟩, _⟩ := freeVar?_eq_some.mp free
  simp only [freshCopy, free]
  rfl

theorem run_freshCopy_scalar {base : BaseType} {arguments : List RefinedType}
    {refinement : Formula}
    (rigid : env.freeVar? (.scalar base arguments refinement) = none) :
    (env.freshCopy (.scalar base arguments refinement)).run supply =
      (.scalar base ((env.freshCopies arguments).run supply).1
        (.unknown [] (Stem.unknown ++
          toString ((env.freshCopies arguments).run supply).2.issued)),
        ⟨((env.freshCopies arguments).run supply).2.issued + 1⟩) := by
  simp only [freshCopy, rigid]
  rfl

theorem run_freshCopy_function (parameter : String) (argument result : RefinedType) :
    (env.freshCopy (.function parameter argument result)).run supply =
      (.function parameter ((env.freshCopy argument).run supply).1
        ((env.freshCopy result).run ((env.freshCopy argument).run supply).2).1,
        ((env.freshCopy result).run ((env.freshCopy argument).run supply).2).2) := rfl

theorem run_freshCopies_cons (t : RefinedType) (rest : List RefinedType) :
    (env.freshCopies (t :: rest)).run supply =
      (((env.freshCopy t).run supply).1 ::
        ((env.freshCopies rest).run ((env.freshCopy t).run supply).2).1,
        ((env.freshCopies rest).run ((env.freshCopy t).run supply).2).2) := rfl

theorem freshCopy_copiesTerms (t : RefinedType) :
    CopiesTerms env supply ((env.freshCopy t).run supply).2 [t.toTerm]
      [((env.freshCopy t).run supply).1.toTerm] := by
  induction t using Skeleton.induction generalizing supply with
  | scalar base arguments refinement induction =>
      cases free : env.freeVar? (.scalar base arguments refinement) with
      | some name =>
          rw [run_freshCopy_of_free env supply free]
          obtain ⟨⟨_, equal⟩, _⟩ := freeVar?_eq_some.mp free
          rw [equal]
          exact .free env supply name
      | none =>
          have copied : CopiesTerms env supply ((env.freshCopies arguments).run supply).2
              (arguments.map Skeleton.toTerm)
              (((env.freshCopies arguments).run supply).1.map Skeleton.toTerm) := by
            clear free
            induction arguments generalizing supply with
            | nil => exact .nil
            | cons head rest restInduction =>
                rw [run_freshCopies_cons]
                exact .cons (induction head (by simp) supply) (restInduction
                  (fun t member => induction t (List.mem_cons_of_mem head member)) _)
          rw [run_freshCopy_scalar env supply free]
          suffices node : CopiesTerms env supply ((env.freshCopies arguments).run supply).2
              [Skeleton.toTerm (.scalar base arguments refinement)]
              [Skeleton.toTerm (.scalar base ((env.freshCopies arguments).run supply).1
                (Formula.unknown [] _))] from node.later (Nat.le_succ _)
          cases arguments with
          | nil =>
              cases base with
              | typeVar name =>
                  exact .bound supply (isBound_of_freeVar?_eq_none free rfl)
              | bool | int | data _ => exact .node _ .nil
          | cons head rest =>
              rw [run_freshCopies_cons] at copied ⊢
              rw [Skeleton.toTerm_scalar_cons, Skeleton.toTerm_scalar_cons]
              exact .node _ copied
  | function parameter argument result argumentInduction resultInduction =>
      rw [run_freshCopy_function]
      exact .node .function (.cons (argumentInduction supply) (resultInduction _))

theorem issued_le_freshCopy (t : RefinedType) :
    supply.issued ≤ ((env.freshCopy t).run supply).2.issued :=
  (freshCopy_copiesTerms env supply t).advances

theorem mem_vars_freshCopy {t : RefinedType} {name : String}
    (occurs : name ∈ ((env.freshCopy t).run supply).1.toTerm.vars) :
    (env.isBound name ∧ name ∈ t.toTerm.vars) ∨
      supply.Draws ((env.freshCopy t).run supply).2 name := by
  simpa using (freshCopy_copiesTerms env supply t).occurs _
    (List.mem_singleton_self _) name occurs

theorem wellKinded_freshCopy {t : RefinedType} (kinded : t.toTerm.WellKinded) :
    ((env.freshCopy t).run supply).1.toTerm.WellKinded :=
  (freshCopy_copiesTerms env supply t).kinds (by simpa using kinded) _
    (List.mem_singleton_self _)

/-- A substitution extends to the variables of a fresh copy so that it does to the
copy what it did to the type. -/
theorem exists_extension_freshCopy {t : RefinedType}
    (avoided : ∀ name ∈ t.toTerm.vars, supply.Avoids name)
    (unifier : String → TypeTerm) :
    ∃ extension : String → TypeTerm,
      (∀ name, ¬ supply.Draws ((env.freshCopy t).run supply).2 name →
        extension name = unifier name) ∧
      ((env.freshCopy t).run supply).1.toTerm.substitute extension =
        t.toTerm.substitute unifier := by
  obtain ⟨extension, agrees, equal⟩ :=
    (freshCopy_copiesTerms env supply t).unifies unifier (by simpa using avoided)
  exact ⟨extension, agrees, by simpa using equal⟩

theorem toTerm_freshCopy_of_rigid {t : RefinedType} (rigid : env.freeVar? t = none) :
    ((env.freshCopy t).run supply).1.toTerm = t.toTerm ∨
      ∃ symbol arguments, ((env.freshCopy t).run supply).1.toTerm =
        .node symbol arguments := by
  cases t with
  | function parameter argument result => exact .inr ⟨_, _, rfl⟩
  | scalar base arguments refinement =>
      rw [run_freshCopy_scalar env supply rigid]
      cases arguments with
      | nil => exact .inl (Skeleton.toTerm_scalar_congr base rfl _ _)
      | cons head rest =>
          rw [run_freshCopies_cons]
          exact .inr ⟨.scalar base, _, Skeleton.toTerm_scalar_cons base _ _ _⟩

end Environment

end Inhabit
