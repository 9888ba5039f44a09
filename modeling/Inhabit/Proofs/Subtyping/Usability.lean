import Inhabit.Proofs.Naming.Clauses
import Inhabit.Proofs.Validity.Connectives

/-! When values of one type can be used as values of another, given what is possible in
scope.

Refinements are taken for what they say of the values of their atoms. The relation is a
preorder: where fewer values are possible, more types are usable as others, so that an
argument of a stronger type does no harm to the results of a function. -/

namespace Inhabit

/-! ## Sorts of variables -/

namespace Formula

def variableSorts (name : String) : Formula → List LogicSort
  | .bool _ | .int _ | .unknown _ _ => []
  | .var sort other => if other = name then [sort] else []
  | .unary _ f | .measure _ _ f => variableSorts name f
  | .binary _ f g => variableSorts name f ++ variableSorts name g
  | .ite f g h => variableSorts name f ++ (variableSorts name g ++ variableSorts name h)

theorem substitute_eq_rename {f : Formula} (known : f.Known) {x y : String}
    {sort : LogicSort} (sorted : ∀ other ∈ f.variableSorts x, other = sort) :
    f.substitute [(x, .var sort y)] = f.rename x y := by
  rw [substitute_singleton known, rename]
  clear known
  induction f using Formula.induction with
  | bool | int | unknown => rfl
  | var other name =>
      by_cases same : name = x
      · rw [variableSorts, if_pos same, List.forall_mem_singleton] at sorted
        simp only [mapVars, if_pos same, sorted]
      · simp only [mapVars, if_neg same]
  | unary op f induction | measure _ _ f induction =>
      exact congrArg _ (induction sorted)
  | binary op f g first second =>
      rw [variableSorts, List.forall_mem_append] at sorted
      rw [mapVars, mapVars, first sorted.1, second sorted.2]
  | ite f g h first second third =>
      simp only [variableSorts, List.forall_mem_append] at sorted
      rw [mapVars, mapVars, first sorted.1, second sorted.2.1, third sorted.2.2]

def InRange (bound : Int64) (values : Formula → Int) : Prop :=
  ∀ atom, Admits bound atom (values atom)

theorem InRange.rename {bound : Int64} {values : Formula → Int}
    (inRange : InRange bound values) (old new : String) :
    InRange bound fun atom => values (atom.rename old new) :=
  fun _ => admits_rename.mp (inRange _)

theorem hasValue_rename {values : Formula → Int} {f : Formula} {old new : String} :
    (f.rename old new).HasValue values ↔
      f.HasValue fun atom => values (atom.rename old new) := by
  unfold HasValue
  rw [evaluate_rename]

theorem holds_rename {values : Formula → Int} {f : Formula} {old new : String} :
    (f.rename old new).Holds values ↔
      f.Holds fun atom => values (atom.rename old new) := by
  unfold Holds
  rw [evaluate_rename]

/-- A refinement without unknowns, in which variables have the sorts that the scope gives
them, and which does not trap as long as its atoms are in range. -/
structure Proper (bound : Int64) (scope : List (String × LogicSort)) (f : Formula) : Prop where
  known : f.Known
  sorted : ∀ entry ∈ scope, ∀ sort ∈ f.variableSorts entry.1, sort = entry.2
  hasValue : ∀ values, InRange bound values → f.HasValue values

end Formula

namespace RefinedType

def formal (name : String) : RefinedType → List (String × LogicSort)
  | .scalar base _ _ => [(name, base.sort)]
  | .function _ _ _ => []

mutual

/-- All refinements are proper. The value is of the sort of its type, and so are the
arguments in scope. -/
def Proper (bound : Int64) (scope : List (String × LogicSort)) : RefinedType → Prop
  | .scalar base arguments refinement =>
      refinement.Proper bound ((valueName, base.sort) :: scope) ∧
        ProperAll bound scope arguments
  | .function name argument result =>
      Proper bound scope argument ∧ Proper bound (formal name argument ++ scope) result
termination_by structural t => t

def ProperAll (bound : Int64) (scope : List (String × LogicSort)) : List RefinedType → Prop
  | [] => True
  | t :: rest => Proper bound scope t ∧ ProperAll bound scope rest
termination_by structural ts => ts

end

section Proper

variable {bound : Int64} {scope : List (String × LogicSort)} {base : BaseType}
  {arguments : List RefinedType} {refinement : Formula} {name : String}
  {argument result t : RefinedType}

theorem proper_scalar : Proper bound scope (.scalar base arguments refinement) ↔
    refinement.Proper bound ((valueName, base.sort) :: scope) ∧
      ∀ t ∈ arguments, Proper bound scope t := by
  rw [Proper]
  apply and_congr_right'
  induction arguments with
  | nil => simp [ProperAll]
  | cons head rest induction => rw [ProperAll, induction, List.forall_mem_cons]

theorem proper_function : Proper bound scope (.function name argument result) ↔
    Proper bound scope argument ∧ Proper bound (argument.formal name ++ scope) result :=
  Iff.rfl

theorem Proper.known (proper : Proper bound scope t) : t.Known := by
  induction t using Skeleton.induction generalizing scope with
  | scalar base arguments refinement induction =>
      rw [proper_scalar] at proper
      exact known_scalar.mpr ⟨proper.1.known,
        fun t member => induction t member (proper.2 t member)⟩
  | function name argument result first second =>
      rw [proper_function] at proper
      exact known_function.mpr ⟨first proper.1, second proper.2⟩

theorem Proper.substitute_self (proper : Proper bound scope t) {sort : LogicSort}
    (member : (name, sort) ∈ scope) : t.substitute [(name, .var sort name)] = t := by
  induction t using Skeleton.induction generalizing scope with
  | scalar base arguments refinement induction =>
      rw [proper_scalar] at proper
      have same : arguments.map (substitute [(name, .var sort name)]) = arguments :=
        (List.map_congr_left fun t inside =>
          induction t inside (proper.2 t inside) member).trans (List.map_id _)
      rw [substitute_scalar, same, Formula.substitute_eq_rename proper.1.known
        (proper.1.sorted _ (List.mem_cons_of_mem _ member)), Formula.rename_self]
  | function parameter argument result first second =>
      rw [proper_function] at proper
      rw [substitute_function proper.2.known, first proper.1 member,
        second proper.2 (List.mem_append_right _ member), ite_self]

theorem Proper.renameVar_self (proper : Proper bound (argument.formal name ++ scope) result) :
    result.renameVar name name argument = result := by
  cases argument with
  | function _ _ _ => rfl
  | scalar base _ _ => exact proper.substitute_self List.mem_cons_self

end Proper

/-! ## What an argument tells -/

open Environment (factAbout)

section Facts

variable {bound : Int64} {scope : List (String × LogicSort)} {t : RefinedType} {name : String}
  {values : Formula → Int}

theorem factAbout_eq_rename {base : BaseType} {arguments : List RefinedType}
    {refinement : Formula} (proper : Proper bound scope (.scalar base arguments refinement)) :
    factAbout name (.scalar base arguments refinement) = refinement.rename valueName name := by
  rw [proper_scalar] at proper
  exact Formula.substitute_eq_rename proper.1.known (proper.1.sorted _ List.mem_cons_self)

theorem Proper.hasValue_factAbout (proper : Proper bound scope t)
    (inRange : Formula.InRange bound values) : (factAbout name t).HasValue values := by
  cases t with
  | function _ _ _ => exact Formula.hasValue_top
  | scalar base arguments refinement =>
      rw [factAbout_eq_rename proper, Formula.hasValue_rename]
      exact (proper_scalar.mp proper).1.hasValue _ (inRange.rename _ _)

theorem valueName_not_mem_factAbout (known : t.Known) (different : name ≠ valueName) :
    valueName ∉ (factAbout name t).variableOccurrences := by
  cases t with
  | function _ _ _ => exact List.not_mem_nil
  | scalar base arguments refinement =>
      rw [factAbout, Formula.substituteVar,
        Formula.variableOccurrences_substitute (known_scalar.mp known).1]
      intro member
      rcases List.mem_map.mp member with ⟨other, _, equal⟩
      split at equal
      · exact different equal
      · contradiction

end Facts

/-! ## Usability -/

/-- Under the values that are possible, a value of the first type can be used as one of the
second. The results of functions are compared for the arguments that both take. -/
inductive UsableAs : ((Formula → Int) → Prop) → RefinedType → RefinedType → Prop where
  | atom {possible : (Formula → Int) → Prop} {left right : Formula} (base : BaseType)
      (implies : ∀ values, possible values → left.Holds values → right.Holds values) :
      UsableAs possible (.scalar base [] left) (.scalar base [] right)
  | scalar {possible : (Formula → Int) → Prop} {base : BaseType}
      {head other : RefinedType} {rest others : List RefinedType} {left right : Formula}
      (heads : UsableAs possible head other)
      (rests : UsableAs possible (.scalar base rest left) (.scalar base others right)) :
      UsableAs possible (.scalar base (head :: rest) left) (.scalar base (other :: others) right)
  | function {possible : (Formula → Int) → Prop} {name : String}
      {argument other result otherResult : RefinedType}
      (arguments : UsableAs possible other argument)
      (results : UsableAs (fun values => possible values ∧ (factAbout name other).Holds values)
        result otherResult) :
      UsableAs possible (.function name argument result) (.function name other otherResult)

/-- Whether values are possible does not depend on the value that is spoken of. -/
def Impersonal (possible : (Formula → Int) → Prop) : Prop :=
  ∀ values name, possible values → possible fun atom => values (atom.rename valueName name)

namespace UsableAs

variable {possible other : (Formula → Int) → Prop}

theorem refl (possible : (Formula → Int) → Prop) (t : RefinedType) : UsableAs possible t t := by
  induction t using Skeleton.induction generalizing possible with
  | scalar base arguments refinement induction =>
      induction arguments with
      | nil => exact .atom base fun _ _ holds => holds
      | cons head rest inner =>
          rw [List.forall_mem_cons] at induction
          exact .scalar (induction.1 possible) (inner induction.2)
  | function name argument result first second => exact .function (first _) (second _)

theorem mono {left right : RefinedType} (usable : UsableAs possible left right)
    (fewer : ∀ values, other values → possible values) : UsableAs other left right := by
  induction usable generalizing other with
  | atom base implies => exact .atom base fun values here => implies values (fewer values here)
  | scalar _ _ heads rests => exact .scalar (heads fewer) (rests fewer)
  | function _ _ arguments results =>
      exact .function (arguments fewer)
        (results fun values both => both.imp_left (fewer values))

theorem holds_of_scalars {base otherBase : BaseType} {arguments others : List RefinedType}
    {left right : Formula}
    (usable : UsableAs possible (.scalar base arguments left) (.scalar otherBase others right))
    {values : Formula → Int} (isPossible : possible values) (holds : left.Holds values) :
    right.Holds values := by
  induction arguments generalizing others with
  | nil =>
      cases usable with
      | atom _ implies => exact implies values isPossible holds
  | cons head rest induction =>
      cases usable with
      | scalar _ rests => exact induction rests

theorem factAbout_holds {bound : Int64} {firstScope secondScope : List (String × LogicSort)}
    {first second : RefinedType} (usable : UsableAs possible first second)
    (impersonal : Impersonal possible) (firstProper : Proper bound firstScope first)
    (secondProper : Proper bound secondScope second) {name : String} {values : Formula → Int}
    (isPossible : possible values) (holds : (factAbout name first).Holds values) :
    (factAbout name second).Holds values := by
  cases second with
  | function _ _ _ => exact Formula.holds_top
  | scalar base arguments refinement =>
      cases first with
      | function _ _ _ => cases usable
      | scalar otherBase others other =>
          rw [factAbout_eq_rename firstProper, Formula.holds_rename] at holds
          rw [factAbout_eq_rename secondProper, Formula.holds_rename]
          exact usable.holds_of_scalars (impersonal values name isPossible) holds

end UsableAs

theorem Impersonal.factAbout {possible : (Formula → Int) → Prop}
    (impersonal : Impersonal possible) {bound : Int64} {scope : List (String × LogicSort)}
    {t : RefinedType} (proper : Proper bound scope t) {name : String}
    (different : name ≠ valueName) :
    Impersonal fun values => possible values ∧ (factAbout name t).Holds values := by
  rintro values other ⟨isPossible, holds⟩
  refine ⟨impersonal values other isPossible, Formula.holds_rename.mp ?_⟩
  rwa [Formula.rename_of_not_mem (valueName_not_mem_factAbout proper.known different)]

/-- Arguments are taken the other way round, and the results are compared for the stronger
arguments. -/
theorem UsableAs.trans {possible : (Formula → Int) → Prop} {bound : Int64}
    {firstScope secondScope thirdScope : List (String × LogicSort)}
    {first second third : RefinedType} (impersonal : Impersonal possible)
    (firstProper : Proper bound firstScope first)
    (secondProper : Proper bound secondScope second)
    (thirdProper : Proper bound thirdScope third)
    (names : valueName ∉ second.argumentNames)
    (early : UsableAs possible first second) (late : UsableAs possible second third) :
    UsableAs possible first third := by
  induction second using Skeleton.induction
      generalizing possible firstScope secondScope thirdScope first third with
  | scalar base arguments refinement induction =>
      induction arguments generalizing first third with
      | nil =>
          cases early with
          | atom _ implies =>
              cases late with
              | atom _ further =>
                  exact .atom base fun values here holds =>
                    further values here (implies values here holds)
      | cons head rest inner =>
          cases early with
          | scalar heads rests =>
              cases late with
              | scalar furtherHeads furtherRests =>
                  rw [proper_scalar, List.forall_mem_cons] at firstProper secondProper thirdProper
                  rw [Skeleton.argumentNames_scalar, List.flatMap_cons, List.mem_append,
                    not_or] at names
                  rw [List.forall_mem_cons] at induction
                  apply UsableAs.scalar
                  · exact induction.1 impersonal firstProper.2.1 secondProper.2.1
                      thirdProper.2.1 names.1 heads furtherHeads
                  · rw [← Skeleton.argumentNames_scalar base rest refinement] at names
                    exact inner induction.2 (proper_scalar.mpr ⟨firstProper.1, firstProper.2.2⟩)
                      (proper_scalar.mpr ⟨secondProper.1, secondProper.2.2⟩)
                      (proper_scalar.mpr ⟨thirdProper.1, thirdProper.2.2⟩) names.2 rests
                      furtherRests
  | function name argument result inArgument inResult =>
      rw [Skeleton.argumentNames_function, List.mem_cons, List.mem_append, not_or, not_or] at names
      cases early with
      | function arguments results =>
          cases late with
          | @function _ _ _ other _ otherResult furtherArguments furtherResults =>
              rw [proper_function] at firstProper secondProper thirdProper
              apply UsableAs.function
              · exact inArgument impersonal thirdProper.1 secondProper.1 firstProper.1 names.2.1
                  furtherArguments arguments
              -- The results are compared for arguments of the third type, all of which are of the
              -- second.
              · have stronger (values : Formula → Int) : possible values ∧
                    (factAbout name other).Holds values →
                      possible values ∧ (factAbout name argument).Holds values :=
                  fun both => ⟨both.1, furtherArguments.factAbout_holds impersonal
                    thirdProper.1 secondProper.1 both.1 both.2⟩
                have narrowed := results.mono stronger
                exact inResult (impersonal.factAbout thirdProper.1 (Ne.symm names.1))
                  firstProper.2 secondProper.2 thirdProper.2 names.2.2 narrowed furtherResults

end RefinedType

end Inhabit
