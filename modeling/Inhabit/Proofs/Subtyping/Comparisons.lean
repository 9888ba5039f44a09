import Inhabit.Proofs.Enumeration.Comparisons
import Inhabit.Proofs.Search.Meaning
import Inhabit.Proofs.Subtyping.Usability

/-! What a comparison of two types of one shape comes down to: clauses that are valid
exactly if the one type is usable as the other under the facts in scope. -/

namespace Inhabit

open Skeleton RefinedType Formula

/-! ## Facts -/

namespace Environment

variable {env : Environment} {bound : Int64} {values : Formula → Int} {name : String}
  {t : RefinedType}

structure Possible (env : Environment) (bound : Int64) (values : Formula → Int) : Prop where
  inRange : InRange bound values
  positives : ∀ fact ∈ env.positives ∅, fact.Holds values
  negatives : ∀ fact ∈ env.negatives ∅, ¬ fact.Holds values

/-- No fact in scope traps as long as its atoms are in range. -/
structure TrapFree (env : Environment) (bound : Int64) : Prop where
  positives : ∀ fact ∈ env.positives ∅, ∀ values, InRange bound values → fact.HasValue values
  negatives : ∀ fact ∈ env.negatives ∅, ∀ values, InRange bound values → fact.HasValue values

/-- The name is neither that of a scalar symbol nor that of a constant. -/
structure Lacks (env : Environment) (name : String) : Prop where
  symbol : (env.symbolsOfArity 0).find? name = none
  notConstant : env.isConstant name = false

def addFormal (env : Environment) (name : String) (t : RefinedType) : Environment :=
  if t.isScalar then env.addVariable name t else env

theorem mem_positives_addFormal (lacks : env.Lacks name) {fact : Formula} :
    fact ∈ (env.addFormal name t).positives ∅ ↔
      (factAbout name t = fact ∧ fact.isTrue = false) ∨ fact ∈ env.positives ∅ := by
  unfold addFormal
  cases t with
  | scalar base arguments refinement =>
      exact mem_positives_addVariable rfl lacks.symbol lacks.notConstant
  | function _ _ _ =>
      refine (or_iff_right ?_).symm
      rintro ⟨rfl, proper⟩
      cases proper

theorem mem_negatives_addFormal {fact : Formula} :
    fact ∈ (env.addFormal name t).negatives ∅ ↔ fact ∈ env.negatives ∅ := by
  unfold addFormal
  split
  · exact mem_negatives_addVariable
  · rfl

theorem possible_addFormal (lacks : env.Lacks name) :
    (env.addFormal name t).Possible bound =
      fun values => env.Possible bound values ∧ (factAbout name t).Holds values := by
  funext values
  apply propext
  constructor
  · intro possible
    refine ⟨⟨possible.inRange, fun fact member => possible.positives fact ?_,
      fun fact member => possible.negatives fact (mem_negatives_addFormal.mpr member)⟩, ?_⟩
    · exact (mem_positives_addFormal lacks).mpr (.inr member)
    · by_cases trivial : (factAbout name t).isTrue = true
      · rw [eq_top_of_isTrue trivial]
        exact holds_top
      · rw [Bool.not_eq_true] at trivial
        exact possible.positives _ ((mem_positives_addFormal lacks).mpr (.inl ⟨rfl, trivial⟩))
  · rintro ⟨possible, holds⟩
    refine ⟨possible.inRange, fun fact member => ?_,
      fun fact member => possible.negatives fact (mem_negatives_addFormal.mp member)⟩
    rcases (mem_positives_addFormal lacks).mp member with ⟨rfl, _⟩ | old
    · exact holds
    · exact possible.positives fact old

theorem TrapFree.addFormal (trapFree : env.TrapFree bound) (lacks : env.Lacks name)
    {scope : List (String × LogicSort)} (proper : t.Proper bound scope) :
    (env.addFormal name t).TrapFree bound where
  positives fact member values inRange := by
    rcases (mem_positives_addFormal lacks).mp member with ⟨rfl, _⟩ | old
    · exact proper.hasValue_factAbout inRange
    · exact trapFree.positives fact old values inRange
  negatives fact member := trapFree.negatives fact (mem_negatives_addFormal.mp member)

theorem Lacks.addFormal {other : String} (lacks : env.Lacks other) (different : other ≠ name) :
    (env.addFormal name t).Lacks other := by
  unfold Environment.addFormal
  split
  · rename_i isScalar
    refine ⟨?_, lacks.notConstant⟩
    rw [symbolsOfArity_addVariable isScalar, SortedMap.find?_insert, if_neg different]
    exact lacks.symbol
  · exact lacks

theorem rigid_addFormal {other : RefinedType} :
    (env.addFormal name t).Rigid other ↔ env.Rigid other := by
  unfold addFormal
  split
  · exact rigid_congr rfl
  · rfl

end Environment

/-! ## Clauses -/

theorem holds_subtypeClause {env : Environment} {bound : Int64} {values : Formula → Int}
    {left right : Formula} (trapFree : env.TrapFree bound) (inRange : InRange bound values)
    (leftHasValue : left.HasValue values) (rightHasValue : right.HasValue values) :
    (Search.subtypeClause env ∅ left right).toFormula.Holds values ↔
      (env.Possible bound values → left.Holds values → right.Holds values) := by
  have hasValue := Search.hasValue_subtypeClause
    (fun fact member => trapFree.positives fact member values inRange)
    (fun fact member => trapFree.negatives fact member values inRange)
    leftHasValue rightHasValue
  rw [Search.holds_subtypeClause_iff hasValue]
  constructor
  · intro follows possible holds
    exact (follows possible.positives holds).resolve_left fun ⟨fact, member, holds⟩ =>
      possible.negatives fact member holds
  · intro follows hold holds
    by_cases refuted : ∃ fact ∈ env.negatives ∅, fact.Holds values
    · exact .inl refuted
    · exact .inr (follows ⟨inRange, hold, fun fact member holds =>
        refuted ⟨fact, member, holds⟩⟩ holds)

namespace Constraint

def Valid (bound : Int64) (constraint : Constraint) : Prop :=
  ∀ clause ∈ constraint.clauses, clause.toFormula.isValid bound = .ok true

theorem valid_atoms {env : Environment} {bound : Int64} {base : BaseType}
    {left right : Formula} (nonnegative : 0 ≤ bound.toInt) (trapFree : env.TrapFree bound)
    (leftHasValue : ∀ values, InRange bound values → left.HasValue values)
    (rightHasValue : ∀ values, InRange bound values → right.HasValue values) :
    (subtype env (.atom base left) (.atom base right)).Valid bound ↔
      UsableAs (env.Possible bound) (.atom base left) (.atom base right) := by
  have usable : UsableAs (env.Possible bound) (.atom base left) (.atom base right) ↔
      ∀ values, env.Possible bound values → left.Holds values → right.Holds values :=
    ⟨fun usable _ => usable.holds_of_scalars, .atom base⟩
  rw [usable, Valid, atom, atom, clauses]
  split
  · rename_i trivial
    refine iff_of_true (List.forall_mem_nil _) fun _ _ _ => ?_
    rw [eq_top_of_isTrue trivial]
    exact holds_top
  · rw [List.forall_mem_singleton, isValid_iff nonnegative]
    constructor
    · intro valid values possible
      have inRange := possible.inRange
      exact (holds_subtypeClause trapFree inRange (leftHasValue values inRange)
        (rightHasValue values inRange)).mp (valid values inRange) possible
    · intro follows values inRange
      exact (holds_subtypeClause trapFree inRange (leftHasValue values inRange)
        (rightHasValue values inRange)).mpr (follows values)

end Constraint

/-! ## Comparisons -/

/-- The constraints come down to atomic subtypings whose clauses are valid exactly if this
holds. -/
def AmountsTo (bound : Int64) (constraints : List Constraint) (holds : Prop) : Prop :=
  ∃ atoms, (∀ atom ∈ atoms, atom.IsSubtype ∧ atom.rewriting ∅ = .keep) ∧
    (∃ cost, ∀ before : Workspace,
      Settles cost before constraints (before.addSimple atoms)) ∧
    ((∀ atom ∈ atoms, atom.Valid bound) ↔ holds)

namespace AmountsTo

variable {bound : Int64} {first second parts : List Constraint} {constraint : Constraint}
  {holds other : Prop}

theorem congr (amounts : AmountsTo bound first holds) (same : holds ↔ other) :
    AmountsTo bound first other :=
  propext same ▸ amounts

theorem append (early : AmountsTo bound first holds) (late : AmountsTo bound second other) :
    AmountsTo bound (first ++ second) (holds ∧ other) := by
  rcases early with ⟨atoms, kept, ⟨cost, settles⟩, valid⟩
  rcases late with ⟨more, keptMore, ⟨costMore, settlesMore⟩, validMore⟩
  refine ⟨atoms ++ more, List.forall_mem_append.mpr ⟨kept, keptMore⟩,
    ⟨cost + costMore, fun before => ?_⟩, ?_⟩
  · have whole := (settles before).append (settlesMore (before.addSimple atoms))
    rwa [Workspace.addSimple_addSimple] at whole
  · rw [List.forall_mem_append, valid, validMore]

theorem decompose (amounts : AmountsTo bound parts holds)
    (rewriting : ∀ assignment, constraint.rewriting assignment = .decompose parts) :
    AmountsTo bound [constraint] holds := by
  rcases amounts with ⟨atoms, kept, ⟨cost, settles⟩, valid⟩
  exact ⟨atoms, kept, ⟨cost + 1, fun before => (settles before).decompose (rewriting _)⟩, valid⟩

theorem keep (isSubtype : constraint.IsSubtype)
    (rewriting : ∀ assignment, constraint.rewriting assignment = .keep) :
    AmountsTo bound [constraint] (constraint.Valid bound) :=
  ⟨[constraint], List.forall_mem_singleton.mpr ⟨isSubtype, rewriting ∅⟩,
    ⟨1, fun _ => .keep (rewriting _)⟩, List.forall_mem_singleton⟩

end AmountsTo

/-! ## Checkable types -/

theorem RefinedType.formal_of_shape {t other : RefinedType} (same : t.shape = other.shape)
    (name : String) : formal name t = formal name other := by
  cases t with
  | scalar base arguments refinement =>
      cases other with
      | function _ _ _ => cases same
      | scalar otherBase others other =>
          rw [shape_scalar, shape_scalar, Skeleton.scalar.injEq] at same
          rw [formal, formal, same.1]
  | function _ _ _ =>
      cases other with
      | function _ _ _ => rfl
      | scalar _ _ _ => cases same

/-- The type has neither unknowns nor free type variables, and its refinements are proper.
Its arguments have different names, which are new to the scope. -/
structure RefinedType.Checkable (env : Environment) (bound : Int64)
    (scope : List (String × LogicSort)) (t : RefinedType) : Prop where
  rigid : env.Rigid t
  proper : t.Proper bound scope
  distinct : t.argumentNames.Nodup
  fresh : ∀ name ∈ t.argumentNames, name ≠ valueName ∧ env.Lacks name

namespace RefinedType.Checkable

variable {env : Environment} {bound : Int64} {scope : List (String × LogicSort)}
  {base : BaseType} {head argument result : RefinedType} {rest : List RefinedType}
  {refinement : Formula} {name : String}

theorem scalarHead (checkable : Checkable env bound scope (.scalar base (head :: rest) refinement)) :
    Checkable env bound scope head := by
  rcases checkable with ⟨rigid, proper, distinct, fresh⟩
  rw [argumentNames_scalar, List.flatMap_cons] at distinct fresh
  exact ⟨(Environment.rigid_scalar.mp rigid).2 head List.mem_cons_self,
    (proper_scalar.mp proper).2 head List.mem_cons_self, distinct.of_append_left,
    fun name member => fresh name (List.mem_append_left _ member)⟩

theorem scalarRest (checkable : Checkable env bound scope (.scalar base (head :: rest) refinement)) :
    Checkable env bound scope (.scalar base rest refinement) := by
  rcases checkable with ⟨rigid, proper, distinct, fresh⟩
  rw [argumentNames_scalar, List.flatMap_cons, ← argumentNames_scalar base rest refinement]
    at distinct fresh
  rw [Environment.rigid_scalar, List.forall_mem_cons] at rigid
  rw [proper_scalar, List.forall_mem_cons] at proper
  exact ⟨Environment.rigid_scalar.mpr ⟨rigid.1, rigid.2.2⟩,
    proper_scalar.mpr ⟨proper.1, proper.2.2⟩, distinct.of_append_right,
    fun name member => fresh name (List.mem_append_right _ member)⟩

theorem functionArgument (checkable : Checkable env bound scope (.function name argument result)) :
    Checkable env bound scope argument := by
  rcases checkable with ⟨rigid, proper, distinct, fresh⟩
  rw [argumentNames_function] at distinct fresh
  exact ⟨(Environment.rigid_function.mp rigid).1, (proper_function.mp proper).1,
    (List.nodup_cons.mp distinct).2.of_append_left,
    fun name member => fresh name (List.mem_cons_of_mem _ (List.mem_append_left _ member))⟩

theorem functionResult (checkable : Checkable env bound scope (.function name argument result))
    {other : RefinedType} (same : argument.shape = other.shape) :
    Checkable (env.addFormal name other) bound (formal name other ++ scope) result := by
  rcases checkable with ⟨rigid, proper, distinct, fresh⟩
  rw [argumentNames_function] at distinct fresh
  rw [List.nodup_cons] at distinct
  refine ⟨Environment.rigid_addFormal.mpr (Environment.rigid_function.mp rigid).2,
    formal_of_shape same name ▸ (proper_function.mp proper).2, distinct.2.of_append_right, ?_⟩
  intro formal member
  have inside := List.mem_append_right argument.argumentNames member
  have different : formal ≠ name := ne_of_mem_of_not_mem inside distinct.1
  exact (fresh formal (List.mem_cons_of_mem _ inside)).imp_right (·.addFormal different)

end RefinedType.Checkable

namespace Constraint

section Parts

variable {env : Environment} {bound : Int64} {scope : List (String × LogicSort)}
  {base : BaseType} {name : String} {head otherHead argument other result otherResult :
    RefinedType} {rest otherRest : List RefinedType} {left right : Formula}

theorem amountsTo_atoms (nonnegative : 0 ≤ bound.toInt) (trapFree : env.TrapFree bound)
    (leftCheckable : Checkable env bound scope (.atom base left))
    (rightCheckable : Checkable env bound scope (.atom base right)) :
    AmountsTo bound [.subtype env (.atom base left) (.atom base right)]
      (UsableAs (env.Possible bound) (.atom base left) (.atom base right)) :=
  (AmountsTo.keep ⟨_, _, _, rfl⟩ fun assignment =>
    (rewriting_of_rigid leftCheckable.rigid rightCheckable.rigid assignment).trans
      (if_pos ⟨rfl, rfl⟩)).congr
    (valid_atoms nonnegative trapFree (proper_scalar.mp leftCheckable.proper).1.hasValue
      (proper_scalar.mp rightCheckable.proper).1.hasValue)

theorem amountsTo_scalars
    (leftCheckable : Checkable env bound scope (.scalar base (head :: rest) left))
    (rightCheckable : Checkable env bound scope (.scalar base (otherHead :: otherRest) right))
    (lengths : rest.length = otherRest.length)
    (heads : AmountsTo bound [.subtype env head otherHead]
      (UsableAs (env.Possible bound) head otherHead))
    (rests : AmountsTo bound [.subtype env (.scalar base rest left) (.scalar base otherRest right)]
      (UsableAs (env.Possible bound) (.scalar base rest left) (.scalar base otherRest right))) :
    AmountsTo bound
      [.subtype env (.scalar base (head :: rest) left) (.scalar base (otherHead :: otherRest) right)]
      (UsableAs (env.Possible bound) (.scalar base (head :: rest) left)
        (.scalar base (otherHead :: otherRest) right)) := by
  have whole := (heads.append rests).decompose fun assignment =>
    (rewriting_of_rigid leftCheckable.rigid rightCheckable.rigid assignment).trans
      (decomposeSubtype_cons left right lengths)
  refine whole.congr ⟨fun both => .scalar both.1 both.2, fun usable => ?_⟩
  cases usable with
  | scalar heads rests => exact ⟨heads, rests⟩

theorem amountsTo_functions
    (leftCheckable : Checkable env bound scope (.function name argument result))
    (rightCheckable : Checkable env bound scope (.function name other otherResult))
    (same : argument.shape = other.shape)
    (arguments : AmountsTo bound [.subtype env other argument]
      (UsableAs (env.Possible bound) other argument))
    (results : AmountsTo bound [.subtype (env.addFormal name other) result otherResult]
      (UsableAs ((env.addFormal name other).Possible bound) result otherResult)) :
    AmountsTo bound [.subtype env (.function name argument result)
        (.function name other otherResult)]
      (UsableAs (env.Possible bound) (.function name argument result)
        (.function name other otherResult)) := by
  have scalars : argument.isScalar = other.isScalar :=
    isScalar_eq_of_toTerm_eq (toTerm_of_shape same)
  have decomposes : decomposeSubtype env (.function name argument result)
      (.function name other otherResult) = .decompose [.subtype env other argument,
        .subtype (env.addFormal name other) result otherResult] := by
    rw [decomposeSubtype, (proper_function.mp leftCheckable.proper).2.renameVar_self,
      Environment.addFormal, scalars]
    split <;> rfl
  have whole := (arguments.append results).decompose fun assignment =>
    (rewriting_of_rigid leftCheckable.rigid rightCheckable.rigid assignment).trans decomposes
  have lacks := (leftCheckable.fresh name List.mem_cons_self).2
  rw [Environment.possible_addFormal lacks] at whole
  refine whole.congr ⟨fun both => .function both.1 both.2, fun usable => ?_⟩
  cases usable with
  | function arguments results => exact ⟨arguments, results⟩

end Parts

theorem amountsTo_subtype {env : Environment} {bound : Int64}
    {scope : List (String × LogicSort)} (left right : RefinedType)
    (nonnegative : 0 ≤ bound.toInt) (trapFree : env.TrapFree bound)
    (same : left.shape = right.shape) (leftCheckable : Checkable env bound scope left)
    (rightCheckable : Checkable env bound scope right) :
    AmountsTo bound [.subtype env left right] (UsableAs (env.Possible bound) left right) := by
  match left, right with
  | .scalar _ _ _, .function _ _ _ | .function _ _ _, .scalar _ _ _ => cases same
  | .scalar base [] first, .scalar otherBase others second =>
      rw [shape_scalar, shape_scalar, Skeleton.scalar.injEq, List.map_nil, eq_comm (a := []),
        List.map_eq_nil_iff] at same
      rcases same with ⟨rfl, rfl, _⟩
      exact amountsTo_atoms nonnegative trapFree leftCheckable rightCheckable
  | .scalar base (head :: rest) first, .scalar otherBase [] second =>
      rw [shape_scalar, shape_scalar, Skeleton.scalar.injEq] at same
      cases same.2.1
  | .scalar base (head :: rest) first, .scalar otherBase (otherHead :: otherRest) second =>
      rw [shape_scalar, shape_scalar, Skeleton.scalar.injEq, List.map_cons, List.map_cons,
        List.cons.injEq] at same
      rcases same with ⟨rfl, ⟨headShape, restShapes⟩, _⟩
      have restShape : (Skeleton.scalar base rest first).shape =
          (Skeleton.scalar base otherRest second).shape := by
        rw [shape_scalar, shape_scalar, restShapes]
      have lengths : rest.length = otherRest.length := by
        simpa using congrArg List.length restShapes
      exact amountsTo_scalars leftCheckable rightCheckable lengths
        (amountsTo_subtype head otherHead nonnegative trapFree headShape leftCheckable.scalarHead
          rightCheckable.scalarHead)
        (amountsTo_subtype _ _ nonnegative trapFree restShape leftCheckable.scalarRest
          rightCheckable.scalarRest)
  | .function name argument result, .function otherName other otherResult =>
      rw [shape_function, shape_function, Skeleton.function.injEq] at same
      rcases same with ⟨rfl, argumentShape, resultShape⟩
      have lacks := (leftCheckable.fresh name List.mem_cons_self).2
      exact amountsTo_functions leftCheckable rightCheckable argumentShape
        (amountsTo_subtype other argument nonnegative trapFree argumentShape.symm
          rightCheckable.functionArgument leftCheckable.functionArgument)
        (amountsTo_subtype result otherResult nonnegative
          (trapFree.addFormal lacks rightCheckable.functionArgument.proper) resultShape
          (leftCheckable.functionResult argumentShape) (rightCheckable.functionResult rfl))
termination_by left.toTerm.size + right.toTerm.size
decreasing_by
  · simp only [size_toTerm_scalar, List.map_cons, List.sum_cons]
    omega
  · have := head.toTerm.size_pos
    simp only [size_toTerm_scalar, List.map_cons, List.sum_cons]
    omega
  · simp only [size_toTerm_function]
    omega
  · simp only [size_toTerm_function]
    omega

end Constraint

end Inhabit
