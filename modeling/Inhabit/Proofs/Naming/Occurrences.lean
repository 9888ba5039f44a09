import Inhabit.Proofs.Naming.Types

/-! Each occurrence of a variable in a type, and what a renaming makes of it.

A renaming reaches the free occurrences of a variable and no others. It does not rename
arguments to get out of the way of the new name, so an occurrence that stands in the
scope of an argument of that name is captured. -/

namespace Inhabit

/-! ## Formulas -/

namespace Formula

/-- The variables of a formula with their sorts, one for each occurrence, from left to
right. What is pending for an unknown is not looked into. -/
def variableUses : Formula → List (LogicSort × String)
  | .bool _ | .int _ | .unknown _ _ => []
  | .var sort name => [(sort, name)]
  | .unary _ f | .measure _ _ f => variableUses f
  | .binary _ f g => variableUses f ++ variableUses g
  | .ite f g h => variableUses f ++ (variableUses g ++ variableUses h)

theorem variableOccurrences_eq_map {f : Formula} (known : f.Known) :
    f.variableOccurrences = f.variableUses.map Prod.snd := by
  unfold Known at known
  induction f using Formula.induction with
  | bool | int | var => rfl
  | unknown => cases known
  | unary op f induction | measure sort name f induction => exact induction known
  | binary op f g first second =>
      rcases List.append_eq_nil_iff.mp known with ⟨left, right⟩
      rw [variableOccurrences, variableUses, List.map_append, first left, second right]
  | ite f g h first second third =>
      rcases List.append_eq_nil_iff.mp known with ⟨condition, branches⟩
      rcases List.append_eq_nil_iff.mp branches with ⟨left, right⟩
      rw [variableOccurrences, variableUses, List.map_append, List.map_append,
        first condition, second left, third right]

theorem variableUses_substitute {f : Formula} (known : f.Known) (x y : String)
    (sort : LogicSort) :
    (f.substitute [(x, .var sort y)]).variableUses =
      f.variableUses.map fun use => if use.2 = x then (sort, y) else use := by
  rw [substitute_singleton known]
  unfold Known at known
  induction f using Formula.induction with
  | bool | int => rfl
  | unknown => cases known
  | var other name =>
      rw [mapVars, variableUses, List.map_singleton]
      split <;> rfl
  | unary op f induction | measure _ _ f induction => exact induction known
  | binary op f g first second =>
      rcases List.append_eq_nil_iff.mp known with ⟨left, right⟩
      rw [mapVars, variableUses, variableUses, List.map_append, first left, second right]
  | ite f g h first second third =>
      rcases List.append_eq_nil_iff.mp known with ⟨condition, branches⟩
      rcases List.append_eq_nil_iff.mp branches with ⟨left, right⟩
      rw [mapVars, variableUses, variableUses, List.map_append, List.map_append,
        first condition, second left, third right]

end Formula

/-! ## Types -/

namespace RefinedType

structure Occurrence where
  sort : LogicSort
  name : String
  /-- The arguments that are in scope there, the outermost first. -/
  scope : List String
deriving DecidableEq

namespace Occurrence

/-- No argument in scope is meant. -/
def IsFree (occurrence : Occurrence) : Prop :=
  occurrence.name ∉ occurrence.scope

instance (occurrence : Occurrence) : Decidable occurrence.IsFree :=
  inferInstanceAs (Decidable (_ ∉ _))

def under (argument : String) (occurrence : Occurrence) : Occurrence :=
  { occurrence with scope := argument :: occurrence.scope }

def rename (old new : String) (sort : LogicSort) (occurrence : Occurrence) : Occurrence :=
  if occurrence.name = old ∧ occurrence.IsFree then
    { occurrence with name := new, sort := sort }
  else occurrence

/-- A free occurrence of `old` in the scope of an argument called `new`. -/
def CapturedBy (old new : String) (occurrence : Occurrence) : Prop :=
  occurrence.name = old ∧ occurrence.IsFree ∧ new ∈ occurrence.scope

instance (old new : String) (occurrence : Occurrence) :
    Decidable (occurrence.CapturedBy old new) :=
  inferInstanceAs (Decidable (_ ∧ _))

variable {old new argument : String} {sort : LogicSort} {occurrence : Occurrence}

theorem isFree_under :
    (occurrence.under argument).IsFree ↔ occurrence.name ≠ argument ∧ occurrence.IsFree := by
  unfold IsFree under
  rw [List.mem_cons, not_or]

theorem rename_of_bound (bound : ¬occurrence.IsFree) :
    occurrence.rename old new sort = occurrence :=
  if_neg fun found => bound found.2

theorem rename_under_self : (occurrence.under old).rename old new sort = occurrence.under old :=
  if_neg fun found => (isFree_under.mp found.2).1 found.1

theorem rename_under (different : argument ≠ old) :
    (occurrence.under argument).rename old new sort =
      (occurrence.rename old new sort).under argument := by
  have same : (occurrence.under argument).name = old ∧ (occurrence.under argument).IsFree ↔
      occurrence.name = old ∧ occurrence.IsFree := by
    rw [isFree_under]
    constructor
    · exact fun found => ⟨found.1, found.2.2⟩
    · rintro ⟨isOld, free⟩
      exact ⟨isOld, fun equal => different (equal.symm.trans isOld), free⟩
  unfold rename
  rw [apply_ite (under argument)]
  exact if_congr same rfl rfl

theorem name_rename (free : occurrence.IsFree) :
    (occurrence.rename old new sort).name =
      if occurrence.name = old then new else occurrence.name := by
  unfold rename
  by_cases isOld : occurrence.name = old
  · rw [if_pos ⟨isOld, free⟩, if_pos isOld]
  · rw [if_neg fun found => isOld found.1, if_neg isOld]

theorem isFree_rename :
    (occurrence.rename old new sort).IsFree ↔
      occurrence.IsFree ∧ ¬occurrence.CapturedBy old new := by
  unfold rename CapturedBy
  by_cases found : occurrence.name = old ∧ occurrence.IsFree
  · rw [if_pos found]
    have captured (inScope : new ∈ occurrence.scope) :
        occurrence.name = old ∧ occurrence.IsFree ∧ new ∈ occurrence.scope :=
      ⟨found.1, found.2, inScope⟩
    exact ⟨fun free => ⟨found.2, fun all => free all.2.2⟩,
      fun apart inScope => apart.2 (captured inScope)⟩
  · rw [if_neg found]
    exact ⟨fun free => ⟨free, fun all => found ⟨all.1, all.2.1⟩⟩, And.left⟩

end Occurrence

mutual

def occurrences : RefinedType → List Occurrence
  | .scalar _ arguments refinement =>
      refinement.variableUses.map (fun use => ⟨use.1, use.2, []⟩) ++
        occurrencesAll arguments
  | .function name argument result =>
      occurrences argument ++ (occurrences result).map (Occurrence.under name)
termination_by structural t => t

def occurrencesAll : List RefinedType → List Occurrence
  | [] => []
  | t :: rest => occurrences t ++ occurrencesAll rest
termination_by structural ts => ts

end

theorem occurrencesAll_eq_flatMap (ts : List RefinedType) :
    occurrencesAll ts = ts.flatMap occurrences := by
  induction ts with
  | nil => rfl
  | cons _ _ induction => exact congrArg (_ ++ ·) induction

theorem occurrences_scalar (base : BaseType) (arguments : List RefinedType)
    (refinement : Formula) :
    occurrences (.scalar base arguments refinement) =
      refinement.variableUses.map (fun use => ⟨use.1, use.2, []⟩) ++
        arguments.flatMap occurrences := by
  rw [occurrences, occurrencesAll_eq_flatMap]

theorem occurrences_function (name : String) (argument result : RefinedType) :
    occurrences (.function name argument result) =
      argument.occurrences ++ result.occurrences.map (Occurrence.under name) := rfl

theorem freeVars_eq_map {t : RefinedType} (known : t.Known) :
    t.freeVars = (t.occurrences.filter fun occurrence => occurrence.IsFree).map (·.name) := by
  induction t using Skeleton.induction with
  | scalar base arguments refinement induction =>
      rcases known_scalar.mp known with ⟨refinementKnown, argumentsKnown⟩
      have own : (refinement.variableUses.map fun use =>
          (⟨use.1, use.2, []⟩ : Occurrence)).filter (fun occurrence => occurrence.IsFree) =
          refinement.variableUses.map fun use => ⟨use.1, use.2, []⟩ := by
        apply List.filter_eq_self.mpr
        intro occurrence member
        rcases List.mem_map.mp member with ⟨use, _, rfl⟩
        exact decide_eq_true List.not_mem_nil
      rw [occurrences_scalar, List.filter_append, List.map_append, own, List.map_map, freeVars,
        Formula.variableOccurrences_eq_map refinementKnown, freeVarsAll_eq_flatMap,
        List.filter_flatMap, List.map_flatMap]
      congr 1
      exact List.flatMap_congr fun t member => induction t member (argumentsKnown t member)
  | function name argument result first second =>
      rcases known_function.mp known with ⟨argumentKnown, resultKnown⟩
      rw [occurrences_function, List.filter_append, List.map_append, freeVars,
        first argumentKnown, second resultKnown, List.filter_map, List.filter_map,
        List.filter_filter, List.map_map]
      congr 2
      apply List.filter_congr
      intro occurrence _
      simp [Occurrence.isFree_under]

section Renaming

variable {t : RefinedType} {old new : String} {sort : LogicSort}

/-- Exactly the free occurrences of the variable are renamed; all others are as they were,
and each stands in the scope of the same arguments. -/
theorem occurrences_substitute (known : t.Known) :
    (t.substitute [(old, .var sort new)]).occurrences =
      t.occurrences.map (Occurrence.rename old new sort) := by
  induction t using Skeleton.induction with
  | scalar base arguments refinement induction =>
      rcases known_scalar.mp known with ⟨refinementKnown, argumentsKnown⟩
      rw [substitute_scalar, occurrences_scalar, occurrences_scalar, List.map_append,
        List.map_flatMap, List.flatMap_map,
        Formula.variableUses_substitute refinementKnown, List.map_map, List.map_map]
      congr 1
      · apply List.map_congr_left
        intro use _
        by_cases isOld : use.2 = old <;>
          simp [Occurrence.rename, Occurrence.IsFree, isOld]
      · exact List.flatMap_congr fun t member => induction t member (argumentsKnown t member)
  | function name argument result first second =>
      rcases known_function.mp known with ⟨argumentKnown, resultKnown⟩
      rw [substitute_function resultKnown, occurrences_function, occurrences_function,
        List.map_append, first argumentKnown, List.map_map]
      congr 1
      by_cases isOld : name = old
      · rw [if_pos isOld, isOld]
        exact List.map_congr_left fun _ _ => Occurrence.rename_under_self.symm
      · rw [if_neg isOld, second resultKnown, List.map_map]
        exact List.map_congr_left fun _ _ => (Occurrence.rename_under isOld).symm

theorem freeVars_substitute (known : t.Known) :
    (t.substitute [(old, .var sort new)]).freeVars =
      (t.occurrences.filter fun occurrence =>
        occurrence.IsFree ∧ ¬occurrence.CapturedBy old new).map fun occurrence =>
          if occurrence.name = old then new else occurrence.name := by
  rw [freeVars_eq_map (known.substitute sort), occurrences_substitute known, List.filter_map,
    List.map_map]
  have same : t.occurrences.filter
      ((fun occurrence => occurrence.IsFree) ∘ Occurrence.rename old new sort) =
      t.occurrences.filter fun occurrence =>
        occurrence.IsFree ∧ ¬occurrence.CapturedBy old new :=
    List.filter_congr fun _ _ => decide_eq_decide.mpr Occurrence.isFree_rename
  rw [same]
  apply List.map_congr_left
  intro occurrence member
  have free := of_decide_eq_true (List.mem_filter.mp member).2
  exact Occurrence.name_rename free.1

theorem freeVars_substitute_eq_map_iff (known : t.Known) :
    (t.substitute [(old, .var sort new)]).freeVars =
        t.freeVars.map (fun name => if name = old then new else name) ↔
      ∀ occurrence ∈ t.occurrences, ¬occurrence.CapturedBy old new := by
  have parts : t.occurrences.filter (fun occurrence =>
        occurrence.IsFree ∧ ¬occurrence.CapturedBy old new) =
      (t.occurrences.filter fun occurrence => occurrence.IsFree).filter
        fun occurrence => ¬occurrence.CapturedBy old new := by
    rw [List.filter_filter]
    exact List.filter_congr fun _ _ => by rw [Bool.and_comm, Bool.decide_and]
  rw [freeVars_substitute known, freeVars_eq_map known, List.map_map, parts]
  constructor
  · intro same occurrence member captured
    -- A captured occurrence is missing, and nothing makes up for it.
    have lengths := congrArg List.length same
    rw [List.length_map, List.length_map, List.length_filter_eq_length_iff] at lengths
    have apart := lengths occurrence
      (List.mem_filter.mpr ⟨member, decide_eq_true captured.2.1⟩)
    exact of_decide_eq_true apart captured
  · intro apart
    have all : (t.occurrences.filter fun occurrence => occurrence.IsFree).filter
        (fun occurrence => ¬occurrence.CapturedBy old new) =
        t.occurrences.filter fun occurrence => occurrence.IsFree :=
      List.filter_eq_self.mpr fun occurrence member =>
        decide_eq_true (apart occurrence (List.mem_filter.mp member).1)
    rw [all]
    rfl

/-- Renaming a variable of scalar type renames its free occurrences, at the sort of that
type, and nothing else. A free occurrence becomes bound exactly where it is captured, and
as long as none is, the free variables of the type are the old ones with the variable
renamed. -/
theorem renameVar_renames_free_occurrences (known : t.Known) (old new : String)
    (base : BaseType) (arguments : List RefinedType) (refinement : Formula) :
    let renamed := t.renameVar old new (.scalar base arguments refinement)
    renamed.occurrences = t.occurrences.map (Occurrence.rename old new base.sort) ∧
      (∀ occurrence ∈ t.occurrences, ¬occurrence.IsFree →
        occurrence.rename old new base.sort = occurrence) ∧
      (∀ occurrence ∈ t.occurrences, occurrence.IsFree →
        ((occurrence.rename old new base.sort).IsFree ↔ ¬occurrence.CapturedBy old new)) ∧
      (renamed.freeVars = t.freeVars.map (fun name => if name = old then new else name) ↔
        ∀ occurrence ∈ t.occurrences, ¬occurrence.CapturedBy old new) :=
  ⟨occurrences_substitute known,
    fun _ _ => Occurrence.rename_of_bound,
    fun _ _ free => Occurrence.isFree_rename.trans (and_iff_right free),
    freeVars_substitute_eq_map_iff known⟩

end Renaming

/-- The result is bounded by a variable, but behind an argument of its name. -/
def boundedBehindArgument : RefinedType :=
  .function "z" (.scalar .int [] (.lessThan (.value .int) (.var .int "w")))
    (.function "w" (.scalar .int [] (.lessThan (.value .int) (.var .int "w")))
      (.scalar .int [] (.lessThan (.value .int) (.var .int "w"))))

theorem boundedBehindArgument_renamed :
    let renamed := boundedBehindArgument.renameVar "w" "n" (.scalar .int [] (.bool true))
    boundedBehindArgument.Known ∧
      renamed.freeVars = ["_v", "n", "_v", "n", "_v"] ∧
      renamed.occurrences = [⟨.int, "_v", []⟩, ⟨.int, "n", []⟩, ⟨.int, "_v", ["z"]⟩,
        ⟨.int, "n", ["z"]⟩, ⟨.int, "_v", ["z", "w"]⟩, ⟨.int, "w", ["z", "w"]⟩] := by
  intro renamed
  have known : boundedBehindArgument.Known := rfl
  rcases renameVar_renames_free_occurrences known "w" "n" .int [] (.bool true) with
    ⟨positions, _, _, replaced⟩
  have apart : ∀ occurrence ∈ boundedBehindArgument.occurrences,
      ¬occurrence.CapturedBy "w" "n" := by decide
  refine ⟨known, (replaced.mpr apart).trans (by decide), positions.trans (by decide)⟩

def boundedByVariable : RefinedType :=
  .function "y" (.scalar .int [] (.bool true))
    (.scalar .int [] (.lessThan (.value .int) (.var .int "x")))

/-- Renamed to the name of the argument, the variable is free no more. -/
theorem boundedByVariable_captured :
    let renamed := boundedByVariable.renameVar "x" "y" (.scalar .int [] (.bool true))
    boundedByVariable.Known ∧
      boundedByVariable.occurrences = [⟨.int, "_v", ["y"]⟩, ⟨.int, "x", ["y"]⟩] ∧
      renamed.occurrences = [⟨.int, "_v", ["y"]⟩, ⟨.int, "y", ["y"]⟩] ∧
      boundedByVariable.freeVars = ["_v", "x"] ∧ renamed.freeVars = ["_v"] ∧
      ¬∀ name, name ≠ "_v" → (name ∈ renamed.freeVars ↔
        ∃ other ∈ boundedByVariable.freeVars, (if other = "x" then "y" else other) = name) := by
  intro renamed
  have nothing : renamed.freeVars = ["_v"] := by decide
  refine ⟨rfl, by decide, by decide, by decide, nothing, ?_⟩
  intro same
  have free : "y" ∈ renamed.freeVars := (same "y" (by decide)).mpr ⟨"x", by decide, rfl⟩
  rw [nothing] at free
  exact absurd free (by decide)

end RefinedType

end Inhabit
