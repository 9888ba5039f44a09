import Inhabit.Proofs.Assignments.Early

/-! Assignments under quantifiers.

A quantified variable shadows what is assigned to it, and is not renamed to get out of the
way of a variable in an assigned type. So it makes no difference whether a schema is
instantiated before or after an assignment is applied, exactly if no variable is caught. -/

namespace Inhabit

/-! ## Types without certain variables -/

namespace RefinedType

/-- None of the variables occurs in the type or in a sort of its refinements. -/
structure FreeOf (names : List String) (t : RefinedType) : Prop where
  types : ∀ name ∈ t.toTerm.vars, name ∉ names
  sorts : t.OfSorts fun sort => ∀ name ∈ names, sort ≠ .var name

theorem mem_typeVarOccurrences_of_sort {t : RefinedType} {name : String}
    (isSort : t.base?.map BaseType.sort = some (.var name)) : name ∈ t.typeVarOccurrences := by
  cases t with
  | function _ _ _ => cases isSort
  | scalar base arguments refinement =>
      cases base with
      | bool | int | data _ => cases isSort
      | typeVar _ =>
          cases isSort
          exact List.mem_cons_self

theorem ofSorts_of_mapRefinements_eq {first second : SortAssignment} {t : RefinedType}
    (equal : t.mapRefinements (Formula.instantiateSorts first) =
      t.mapRefinements (Formula.instantiateSorts second)) :
    t.OfSorts fun sort => sort.instantiate first = sort.instantiate second := by
  induction t using Skeleton.induction with
  | function name argument result left right =>
      rw [Skeleton.mapRefinements, Skeleton.mapRefinements, Skeleton.function.injEq] at equal
      exact ⟨left equal.2.1, right equal.2.2⟩
  | scalar base arguments refinement induction =>
      rw [Skeleton.mapRefinements, Skeleton.mapRefinements, mapRefinementsAll_eq_map,
        mapRefinementsAll_eq_map, Skeleton.scalar.injEq, List.map_inj_left] at equal
      exact ofSorts_scalar.mpr ⟨Formula.ofSorts_of_instantiateSorts_eq equal.2.2,
        fun t member => induction t member (equal.2.1 t member)⟩

end RefinedType

/-! ## Shadowed variables -/

namespace TypeAssignment

variable {assignment first later : TypeAssignment}

def shadow (assignment : TypeAssignment) (names : List String) : TypeAssignment :=
  names.foldl SortedMap.erase assignment

theorem find?_shadow (assignment : TypeAssignment) (names : List String) (name : String) :
    (assignment.shadow names).find? name =
      if name ∈ names then none else assignment.find? name := by
  induction names generalizing assignment with
  | nil => rfl
  | cons head rest induction =>
      change (shadow (assignment.erase head) rest).find? name = _
      rw [induction]
      by_cases same : name = head
      · simp [same]
      · simp [same, SortedMap.find?_erase_of_ne _ same]

theorem find?_of_shadow {names : List String} {name : String} {t : RefinedType}
    (found : (assignment.shadow names).find? name = some t) :
    name ∉ names ∧ assignment.find? name = some t := by
  rw [find?_shadow] at found
  split at found
  · cases found
  · exact ⟨‹_›, found⟩

theorem find?_of_shadow_eq_none {names : List String} {name : String}
    (isOpen : (assignment.shadow names).find? name = none) (outside : name ∉ names) :
    assignment.find? name = none := by
  rwa [find?_shadow, if_neg outside] at isOpen

theorem Acyclic.shadow (acyclic : assignment.Acyclic) (names : List String) :
    (assignment.shadow names).Acyclic :=
  acyclic.mono fun _ _ found => (find?_of_shadow found).2

theorem applySchema_eq (assignment : TypeAssignment) (schema : Schema) :
    assignment.applySchema schema =
      .generalize schema.boundVars ((assignment.shadow schema.boundVars).apply schema.body) := by
  induction schema generalizing assignment with
  | mono t => rfl
  | forAll name body induction => exact congrArg (Schema.forAll name) (induction _)

theorem apply_of_open {t : RefinedType}
    (isOpen : ∀ name ∈ t.toTerm.vars, assignment.find? name = none) :
    assignment.apply t = t.mapRefinements (Formula.instantiateSorts assignment.sorts) := by
  induction t using Skeleton.induction with
  | function name argument result first second =>
      rw [Skeleton.vars_function, List.forall_mem_append] at isOpen
      exact congrArg₂ (Skeleton.function name) (first isOpen.1) (second isOpen.2)
  | scalar base arguments refinement induction =>
      rw [apply_scalar (keeps_of_open isOpen), Skeleton.mapRefinements,
        RefinedType.mapRefinementsAll_eq_map]
      refine congrArg (Skeleton.scalar base · _) (List.map_congr_left fun t member => ?_)
      exact induction t member fun name occurs =>
        isOpen name (Skeleton.vars_subset_of_mem_arguments member refinement occurs)

theorem Acyclic.apply_apply_of_open (acyclic : later.Acyclic)
    (ends : SortAssignment.Acyclic later.sorts)
    (longer : ∀ name t, first.find? name = some t → later.find? name = some t)
    {t : RefinedType} (isOpen : ∀ name ∈ (first.apply t).toTerm.vars, later.find? name = none) :
    later.apply (first.apply t) = later.apply t := by
  have refined (f : Formula) :
      later.applyFormula (first.applyFormula f) = later.applyFormula f :=
    f.instantiateSorts_instantiateSorts ends (find?_sorts_mono longer)
  induction t using (acyclic.mono longer).typeInduction with
  | function name argument result argumentInduction resultInduction =>
      rw [apply_function, Skeleton.vars_function, List.forall_mem_append] at isOpen
      exact congrArg₂ (Skeleton.function name) (argumentInduction isOpen.1)
        (resultInduction isOpen.2)
  | assigned name t refinement found induction =>
      rw [(acyclic.mono longer).apply_typeVar found] at isOpen ⊢
      rw [RefinedType.toTerm_addRefinement] at isOpen
      rw [acyclic.apply_typeVar (longer name t found), ← induction isOpen]
      cases image : first.apply t with
      | function _ _ _ => rfl
      | scalar base arguments collected =>
          rw [image] at isOpen
          rw [apply_addRefinement_of_keeps (keeps_of_open isOpen), refined]
  | scalar base arguments refinement keeps induction =>
      rw [apply_scalar keeps] at isOpen ⊢
      have alsoKeeps : later.Keeps base arguments := fun name isVar none => by
        subst isVar none
        exact isOpen name (List.mem_singleton_self name)
      rw [apply_scalar (alsoKeeps.map _), apply_scalar alsoKeeps, refined, List.map_map]
      refine congrArg (Skeleton.scalar base · _) (List.map_congr_left fun t member => ?_)
      exact induction t member fun name occurs => isOpen name
        (Skeleton.vars_subset_of_mem_arguments (List.mem_map_of_mem member) _ occurs)

end TypeAssignment

/-! ## Instances -/

namespace Schema.Opens

variable {schema : Schema} {before after : NameSupply} {images kept : TypeAssignment}
  {opened : String → String} (opens : schema.Opens before after images opened)
  (future : ∀ name ∈ schema.boundVars, before.Avoids name)

include opens

theorem instantiate_of_free {sort : LogicSort}
    (free : ∀ name ∈ schema.boundVars, sort ≠ .var name) :
    sort.instantiate images.sorts = sort := by
  refine LogicSort.instantiate_of_open fun name isVar => ?_
  exact TypeAssignment.find?_sorts_of_open
    (opens.ignores name fun quantified => free name quantified isVar)

include future

theorem instantiate_quantified {name : String} (occurs : name ∈ schema.boundVars) :
    (LogicSort.var name).instantiate images.sorts = .var (opened name) := by
  have found : images.sorts.find? name = some (.var (opened name)) := by
    rw [TypeAssignment.find?_sorts, opens.finds name occurs]
    rfl
  rw [LogicSort.instantiate_of_assigned ((opens.acyclic future).sorts opens.wellKinded) found,
    TypeAssignment.instantiate_var_of_open (opens.ignores_opened future occurs)]

theorem apply_quantified {name : String} (occurs : name ∈ schema.boundVars)
    (refinement : Formula) :
    images.apply (.atom (.typeVar name) refinement) =
      .atom (.typeVar (opened name)) (images.applyFormula refinement) := by
  have keeps := TypeAssignment.keeps_typeVar (opens.ignores_opened future occurs) []
  rw [(opens.acyclic future).apply_typeVar (opens.finds name occurs),
    TypeAssignment.apply_scalar keeps]
  exact congrArg (Skeleton.scalar _ []) (Formula.top_and _)

theorem apply_addRefinement (t : RefinedType) (formula : Formula) :
    images.apply (t.addRefinement formula) =
      (images.apply t).addRefinement (images.applyFormula formula) := by
  cases t with
  | function _ _ _ => rfl
  | scalar base arguments refinement =>
      by_cases keeps : images.Keeps base arguments
      · exact TypeAssignment.apply_addRefinement_of_keeps keeps _ _
      · obtain ⟨name, t, rfl, rfl, found⟩ := TypeAssignment.exists_of_not_keeps keeps
        have quantified := (opens.of_find? found).1
        rw [RefinedType.addRefinement, opens.apply_quantified future quantified,
          opens.apply_quantified future quantified]
        exact congrArg (Skeleton.scalar _ []) (Formula.instantiateSorts_and _ _ _)

theorem freeOf_apply (t : RefinedType) : (images.apply t).FreeOf schema.boundVars where
  types name occurs quantified := by
    have isOpen := (opens.acyclic future).find?_of_mem_apply occurs
    cases (opens.finds name quantified).symm.trans isOpen
  sorts := by
    refine TypeAssignment.ofSorts_apply_of_reached (fun sort name quantified => ?_) t
    by_cases free : ∀ name ∈ schema.boundVars, sort ≠ .var name
    · rw [opens.instantiate_of_free free]
      exact free name quantified
    · push Not at free
      obtain ⟨old, occurs, rfl⟩ := free
      rw [opens.instantiate_quantified future occurs]
      rintro ⟨⟩
      exact opens.opened_not_mem future occurs quantified

/-- Opening quantified variables early makes no difference to an assignment that has nothing
to do with them, if those that it brings in are opened as well. -/
theorem apply_apply_apply (acyclic : kept.Acyclic)
    (spares : ∀ name ∈ schema.boundVars,
      kept.find? name = none ∧ kept.find? (opened name) = none) (t : RefinedType) :
    images.apply (kept.apply (images.apply t)) = images.apply (kept.apply t) := by
  -- Refinements and types are opened alike, so the argument is made for sorts first.
  have sorted (sort : LogicSort) :
      ((sort.instantiate images.sorts).instantiate kept.sorts).instantiate images.sorts =
        (sort.instantiate kept.sorts).instantiate images.sorts := by
    by_cases free : ∀ name ∈ schema.boundVars, sort ≠ .var name
    · rw [opens.instantiate_of_free free]
    · push Not at free
      obtain ⟨name, occurs, rfl⟩ := free
      have atNew := TypeAssignment.instantiate_var_of_open (opens.ignores_opened future occurs)
      rw [opens.instantiate_quantified future occurs,
        TypeAssignment.instantiate_var_of_open (spares name occurs).2,
        TypeAssignment.instantiate_var_of_open (spares name occurs).1,
        opens.instantiate_quantified future occurs, atNew]
  have refined (f : Formula) :
      images.applyFormula (kept.applyFormula (images.applyFormula f)) =
        images.applyFormula (kept.applyFormula f) := by
    simp only [TypeAssignment.applyFormula, Formula.instantiateSorts_eq_mapSorts,
      Formula.mapSorts_mapSorts, sorted]
  induction t using Skeleton.induction with
  | function name argument result first second =>
      exact congrArg₂ (Skeleton.function name) first second
  | scalar base arguments refinement induction =>
      by_cases plain : images.Keeps base arguments
      · rw [TypeAssignment.apply_scalar plain]
        by_cases keeps : kept.Keeps base arguments
        · rw [TypeAssignment.apply_scalar (keeps.map _), TypeAssignment.apply_scalar keeps,
            TypeAssignment.apply_scalar ((plain.map _).map _),
            TypeAssignment.apply_scalar (plain.map _), refined, List.map_map, List.map_map,
            List.map_map]
          exact congrArg (Skeleton.scalar base · _) (List.map_congr_left induction)
        · obtain ⟨name, t, rfl, rfl, found⟩ := TypeAssignment.exists_of_not_keeps keeps
          rw [List.map_nil, acyclic.apply_typeVar found, acyclic.apply_typeVar found,
            opens.apply_addRefinement future, opens.apply_addRefinement future, refined]
      · obtain ⟨name, t, rfl, rfl, found⟩ := TypeAssignment.exists_of_not_keeps plain
        have quantified := (opens.of_find? found).1
        have isNew := opens.ignores_opened future quantified
        rw [opens.apply_quantified future quantified,
          TypeAssignment.apply_scalar (TypeAssignment.keeps_typeVar (spares name quantified).2 _),
          TypeAssignment.apply_scalar (TypeAssignment.keeps_typeVar (spares name quantified).1 _),
          List.map_nil, opens.apply_quantified future quantified,
          TypeAssignment.apply_scalar (TypeAssignment.keeps_typeVar isNew _), refined,
          List.map_nil]

end Schema.Opens

/-! ## Before or after instantiation -/

/-- What is still to be drawn from the supply is not assigned and occurs in no assigned
type. -/
def NameSupply.NewTo (supply : NameSupply) (assignment : TypeAssignment) : Prop :=
  ∀ name t, assignment.find? name = some t →
    supply.Avoids name ∧ ∀ other ∈ t.typeVarOccurrences, supply.Avoids other

namespace TypeAssignment

variable {assignment : TypeAssignment} {schema : Schema} {supply after : NameSupply}
  {name new : String}

theorem eq_or_occurs_of_instantiate (ends : SortAssignment.Acyclic assignment.sorts)
    {sort : LogicSort} (reached : sort.instantiate assignment.sorts = .var name) :
    sort = .var name ∨
      ∃ other t, assignment.find? other = some t ∧ name ∈ t.typeVarOccurrences := by
  rcases LogicSort.instantiate_eq_or_assigned ends sort with same | ⟨other, found⟩
  · exact .inl (same.symm.trans reached)
  · rw [reached, find?_sorts, Option.bind_eq_some_iff] at found
    obtain ⟨t, assigned, isSort⟩ := found
    exact .inr ⟨other, t, assigned, RefinedType.mem_typeVarOccurrences_of_sort isSort⟩

section Drawn

variable (unused : supply.NewTo assignment) (avoids : supply.Avoids name)
  (drawn : supply.Draws after new)

include unused avoids drawn

theorem Acyclic.image_ne_of_draws (acyclic : assignment.Acyclic) :
    assignment.image name ≠ .var new := by
  intro equal
  have applied : (assignment.apply (.atom (.typeVar name) .top)).toTerm = .var new :=
    (toTerm_apply _ _).trans equal
  have occurs : new ∈ (assignment.apply (.atom (.typeVar name) .top)).toTerm.vars :=
    applied ▸ List.mem_singleton_self new
  rcases acyclic.mem_vars_apply occurs with own | ⟨other, t, found, inside⟩
  · cases List.mem_singleton.mp own
    exact drawn.not_avoids avoids
  · exact drawn.not_avoids
      ((unused other t found).2 new (Skeleton.vars_subset_typeVarOccurrences t inside))

theorem instantiate_var_ne_of_draws (ends : SortAssignment.Acyclic assignment.sorts) :
    (LogicSort.var name).instantiate assignment.sorts ≠ .var new := by
  intro equal
  rcases eq_or_occurs_of_instantiate ends equal with own | ⟨other, t, found, inside⟩
  · cases own
    exact drawn.not_avoids avoids
  · exact drawn.not_avoids ((unused other t found).2 new inside)

end Drawn

theorem sorts_shadow_acyclic (ends : SortAssignment.Acyclic assignment.sorts)
    (names : List String) : SortAssignment.Acyclic (assignment.shadow names).sorts :=
  ends.mono (find?_sorts_mono fun _ _ found => (find?_of_shadow found).2)

theorem settled_shadow (ends : SortAssignment.Acyclic assignment.sorts) (names : List String)
    (t : RefinedType) (free : ((assignment.shadow names).apply t).OfSorts fun sort =>
      ∀ name ∈ names, sort ≠ .var name) :
    ((assignment.shadow names).apply t).OfSorts assignment.Settled := by
  refine RefinedType.OfSorts.mp (ofSorts_apply_of_reached (fun sort outside => ?_) t) free
  have settled := settled_instantiate_of_sorts (sorts_shadow_acyclic ends names) sort
  cases reached : sort.instantiate (assignment.shadow names).sorts with
  | bool | int | data _ => trivial
  | var name =>
      rw [reached] at settled
      have notNamed : name ∉ names := fun named => outside name named reached
      change (assignment.shadow names).sorts.find? name = none at settled
      rw [find?_sorts, find?_shadow, if_neg notNamed, ← find?_sorts] at settled
      exact settled

theorem Acyclic.freeOf_apply (acyclic : assignment.Acyclic)
    (ends : SortAssignment.Acyclic assignment.sorts) {names : List String}
    (apart : ∀ name t, assignment.find? name = some t →
      (∀ other ∈ t.typeVarOccurrences, other ∉ names) ∧
        t.OfSorts fun sort => ∀ name ∈ names, sort ≠ .var name)
    {t : RefinedType} (free : t.FreeOf names) : (assignment.apply t).FreeOf names where
  types name occurs := by
    rcases acyclic.mem_vars_apply occurs with own | ⟨other, u, found, inside⟩
    · exact free.types name own
    · exact (apart other u found).1 name (Skeleton.vars_subset_typeVarOccurrences u inside)
  sorts := by
    have sorted (sort : LogicSort) (away : ∀ name ∈ names, sort ≠ .var name) :
        ∀ name ∈ names, sort.instantiate assignment.sorts ≠ .var name := by
      intro name named reached
      rcases eq_or_occurs_of_instantiate ends reached with own | ⟨other, u, found, inside⟩
      · exact away name named own
      · exact (apart other u found).1 name inside named
    have refined (f : Formula) (away : f.OfSorts fun sort => ∀ name ∈ names, sort ≠ .var name) :
        (assignment.applyFormula f).OfSorts fun sort => ∀ name ∈ names, sort ≠ .var name := by
      rw [applyFormula, Formula.OfSorts, Formula.sortedOccurrences_instantiateSorts,
        List.forall_mem_map]
      exact fun occurrence member => sorted _ (away occurrence member)
    have away := free.sorts
    clear free
    induction t using acyclic.typeInduction with
    | function name argument result first second => exact ⟨first away.1, second away.2⟩
    | scalar base arguments refinement keeps induction =>
        rw [RefinedType.ofSorts_scalar] at away
        rw [apply_scalar keeps, RefinedType.ofSorts_scalar, List.forall_mem_map]
        exact ⟨refined _ away.1, fun t member => induction t member (away.2 t member)⟩
    | assigned name t refinement found induction =>
        rw [acyclic.apply_typeVar found]
        exact (induction (apart name t found).2).addRefinement
          (refined _ (RefinedType.ofSorts_scalar.mp away).1)

section Opened

variable {images : TypeAssignment} {opened : String → String}
  (opens : schema.Opens supply after images opened)
  (future : ∀ name ∈ schema.boundVars, supply.Avoids name) (unused : supply.NewTo assignment)

include opens future unused

omit future in
theorem shadow_spares : ∀ name ∈ schema.boundVars,
    (assignment.shadow schema.boundVars).find? name = none ∧
      (assignment.shadow schema.boundVars).find? (opened name) = none := by
  intro name quantified
  refine ⟨by rw [find?_shadow, if_pos quantified], ?_⟩
  rw [Option.eq_none_iff_forall_ne_some]
  intro t found
  exact (opens.draws name quantified).not_avoids (unused _ t (find?_of_shadow found).2).1

/-- A quantified variable that is brought in becomes a new one, or else what it is
assigned. -/
theorem Acyclic.types_free_of_apply_eq (acyclic : assignment.Acyclic) {t : RefinedType}
    (equal : assignment.apply t =
      images.apply ((assignment.shadow schema.boundVars).apply t)) :
    ∀ name ∈ ((assignment.shadow schema.boundVars).apply t).toTerm.vars,
      name ∉ schema.boundVars := by
  intro name occurs quantified
  have respects : (assignment.shadow schema.boundVars).Respects assignment.image :=
    fun other u found => acyclic.respects_image other u (find?_of_shadow found).2
  have terms := congrArg Skeleton.toTerm equal
  rw [toTerm_apply, toTerm_apply images,
    ← (acyclic.shadow _).toTerm_apply_substitute respects t] at terms
  have isNew : images.image name = .var (opened name) := by
    rw [image, RefinedType.imageTerm, opens.resolve future quantified]
    rfl
  exact acyclic.image_ne_of_draws unused (future name quantified) (opens.draws name quantified)
    ((TypeTerm.eq_of_substitute_eq terms name occurs).trans isNew)

theorem Acyclic.apply_opened_iff (acyclic : assignment.Acyclic)
    (ends : SortAssignment.Acyclic assignment.sorts) :
    assignment.apply (images.apply schema.body) =
        images.apply ((assignment.shadow schema.boundVars).apply schema.body) ↔
      ((assignment.shadow schema.boundVars).apply (images.apply schema.body)).FreeOf
        schema.boundVars := by
  rw [← opens.apply_apply_apply future (acyclic.shadow _) (shadow_spares opens unused)]
  generalize images.apply schema.body = t
  -- Where no quantified variable is brought in, all variables left are unassigned.
  have isOpen (types : ∀ name ∈ ((assignment.shadow schema.boundVars).apply t).toTerm.vars,
      name ∉ schema.boundVars) :
      ∀ name ∈ ((assignment.shadow schema.boundVars).apply t).toTerm.vars,
        assignment.find? name = none := fun name occurs =>
    find?_of_shadow_eq_none ((acyclic.shadow _).find?_of_mem_apply occurs) (types name occurs)
  have absorbed := fun types => acyclic.apply_apply_of_open ends
    (fun _ _ found => (find?_of_shadow found).2) (isOpen types)
  constructor
  · intro equal
    have types := acyclic.types_free_of_apply_eq opens future unused equal
    rw [← absorbed types, apply_of_open (isOpen types),
      apply_of_open fun name occurs => opens.ignores name (types name occurs)] at equal
    refine ⟨types, (RefinedType.ofSorts_of_mapRefinements_eq equal).mono ?_⟩
    rintro sort same name quantified rfl
    rw [opens.instantiate_quantified future quantified] at same
    exact instantiate_var_ne_of_draws unused (future name quantified)
      (opens.draws name quantified) ends same
  · intro free
    have fixes : assignment.Fixes ((assignment.shadow schema.boundVars).apply t) :=
      ⟨isOpen free.types, settled_shadow ends _ t free.sorts⟩
    rw [← absorbed free.types, fixes.apply]
    exact (RefinedType.instantiate_eq_self
      (fun name occurs => opens.resolve_of_not_mem (free.types name occurs))
      (free.sorts.mono fun _ => opens.instantiate_of_free)).symm

end Opened

/-- Assignments respect quantifiers. A quantified variable is never replaced, neither as a
type nor as a sort. The names that an instance draws do not depend on the assignment. And
the same type comes out whether the schema is instantiated before or after the assignment is
applied, exactly if what is assigned to other variables brings no quantified variable in,
for instance if none occurs in an assigned type. -/
theorem substitution_respects_quantifiers (acyclic : assignment.Acyclic)
    (ends : SortAssignment.Acyclic assignment.sorts) (schema : Schema) (supply : NameSupply)
    (future : ∀ name ∈ schema.boundVars, supply.Avoids name) (unused : supply.NewTo assignment) :
    let kept := assignment.shadow schema.boundVars
    let early := schema.instantiate.run supply
    let late := (assignment.applySchema schema).instantiate.run supply
    assignment.applySchema schema = .generalize schema.boundVars (kept.apply schema.body) ∧
      (∀ name ∈ schema.boundVars,
        (∀ refinement, kept.apply (.atom (.typeVar name) refinement) =
          .atom (.typeVar name) (kept.applyFormula refinement)) ∧
        (LogicSort.var name).instantiate kept.sorts = .var name) ∧
      late.2 = early.2 ∧
      (assignment.apply early.1 = late.1 ↔ (kept.apply early.1).FreeOf schema.boundVars) ∧
      ((∀ name t, kept.find? name = some t →
          (∀ other ∈ t.typeVarOccurrences, other ∉ schema.boundVars) ∧
            t.OfSorts fun sort => ∀ name ∈ schema.boundVars, sort ≠ .var name) →
        assignment.apply early.1 = late.1) := by
  intro kept early late
  obtain ⟨opened, opens⟩ := schema.exists_opened supply
  have opensEarly : early = _ := schema.run_instantiate supply
  have opensLate : late = _ := (assignment.applySchema schema).run_instantiate supply
  rw [applySchema_eq, Schema.boundVars_generalize, Schema.body_generalize] at opensLate
  have agrees := acyclic.apply_opened_iff opens future unused ends
  rw [opensEarly, opensLate]
  refine ⟨applySchema_eq assignment schema, fun name quantified => ?_, rfl, agrees, ?_⟩
  · have isOpen : kept.find? name = none := by rw [find?_shadow, if_pos quantified]
    exact ⟨apply_scalar (keeps_typeVar isOpen []), instantiate_var_of_open isOpen⟩
  · exact fun apart => agrees.mpr ((acyclic.shadow _).freeOf_apply
      (sorts_shadow_acyclic ends _) apart (opens.freeOf_apply future schema.body))

/-- The first of the two variables called `a` is quantified in vain. -/
def rangedSchema : Schema :=
  .generalize ["a", "c", "a"] (.function "x"
    (.atom (.typeVar "a") (.equals (.var (.var "b") "y") (.var (.var "b") "z")))
    (.atom (.typeVar "b") .top))

/-- What is assigned to `a` is not noticed, and `b` becomes a number wherever it occurs. -/
theorem rangedSchema_instances :
    let early := rangedSchema.instantiate.run {}
    let late := (linkedNumber.applySchema rangedSchema).instantiate.run {}
    linkedNumber.Acyclic ∧ SortAssignment.Acyclic linkedNumber.sorts ∧
      NameSupply.NewTo {} linkedNumber ∧
      late.1 = .function "x"
        (.atom (.typeVar "_a2") (.equals (.var .int "y") (.var .int "z")))
        (.atom .int (.lessThan (.value .int) (.var .int "limit"))) ∧
      late.2 = early.2 ∧ linkedNumber.apply early.1 = late.1 := by
  intro early late
  have ends := linkedNumber_acyclic.sorts linkedNumber_wellKinded
  have future : ∀ name ∈ rangedSchema.boundVars, NameSupply.Avoids {} name :=
    NameSupply.forall_avoids (by decide) _
  have unused : NameSupply.NewTo {} linkedNumber := by
    intro name t found
    have unlike := (by decide : ∀ entry ∈ linkedNumber.entries,
      ∀ other ∈ entry.1 :: entry.2.typeVarOccurrences,
        ¬ Stem.typeVar.toList <+: other.toList) _ (SortedMap.mem_entries_of_find? found)
    exact List.forall_mem_cons.mp (NameSupply.forall_avoids unlike _)
  obtain ⟨_, _, supplies, _, apart⟩ :=
    substitution_respects_quantifiers linkedNumber_acyclic ends rangedSchema {} future unused
  refine ⟨linkedNumber_acyclic, ends, unused, by decide, supplies, apart ?_⟩
  intro name t found
  have known := (by decide : (linkedNumber.shadow rangedSchema.boundVars).entries =
    [("b", .atom .int (.lessThan (.value .int) (.var .int "limit")))])
  have member := SortedMap.mem_entries_of_find? found
  rw [known] at member
  cases List.mem_singleton.mp member
  exact ⟨by decide, by simp [RefinedType.ofSorts_scalar, Formula.OfSorts,
    Formula.sortedOccurrences, Formula.lessThan, Formula.value]⟩

def constantSchema : Schema :=
  .generalize ["a"] (.function "x" (.atom (.typeVar "a") .top) (.atom (.typeVar "b") .top))

/-- A variable called like the quantified one is caught. What was to be one type for all
arguments becomes the type of the argument. -/
theorem constantSchema_captures :
    let assignment : TypeAssignment := .singleton "b" (.atom (.typeVar "a") .top)
    let same (name result : String) : RefinedType :=
      .function "x" (.atom (.typeVar name) .top) (.atom (.typeVar result) .top)
    let early := constantSchema.instantiate.run {}
    let late := (assignment.applySchema constantSchema).instantiate.run {}
    assignment.Acyclic ∧ assignment.WellKinded ∧
      (∀ name ∈ ["a", "b"], NameSupply.Avoids {} name) ∧
      assignment.applySchema constantSchema = .generalize ["a"] (same "a" "a") ∧
      assignment.apply early.1 = same "_a0" "a" ∧ late.1 = same "_a0" "_a0" ∧
      ∀ rename : String → String, rename "a" = "a" →
        (assignment.apply early.1).toTerm.substitute (fun name => .var (rename name)) ≠
          late.1.toTerm := by
  intro assignment same early late
  have first : assignment.apply early.1 = same "_a0" "a" := by decide
  have second : late.1 = same "_a0" "_a0" := by decide
  have acyclic : assignment.Acyclic :=
    acyclic_of_entries (fun name => if name = "b" then 1 else 0) (by decide)
  have kinded : assignment.WellKinded := fun name t found =>
    (by decide : ∀ entry ∈ assignment.entries, entry.2.toTerm.WellKinded) _
      (SortedMap.mem_entries_of_find? found)
  refine ⟨acyclic, kinded, NameSupply.forall_avoids (by decide) _, by decide, first, second, ?_⟩
  intro rename keeps equal
  rw [first, second] at equal
  simp [same, Skeleton.toTerm, keeps] at equal

end TypeAssignment

end Inhabit
