import Inhabit.Proofs.Collections.Images
import Inhabit.Proofs.Solving.Stepwise
import Inhabit.Proofs.Unknowns.Renaming

/-! A bounded solver with other names for the unknowns.

Names make a difference by the order that they put unknowns, clauses and qualifiers into:
what is weakened first may save what comes after it. A renaming that keeps this order
renames the answer. Of clauses in Horn form the order makes no difference to the answer,
since that has the greatest solution. -/

namespace Inhabit

/-! ## Renamed clauses and candidates -/

namespace HornClause

def renameUnknowns (rename : String → String) (clause : HornClause) : HornClause :=
  ⟨clause.antecedent.renameUnknowns rename, clause.consequent.renameUnknowns rename⟩

end HornClause

def Solution.renameUnknowns (rename : String → String) (solution : Solution) : Solution :=
  solution.image rename (SortedSet.map (Formula.renameUnknowns rename))

def QualifierSpace.renameUnknowns (rename : String → String) (space : QualifierSpace) :
    QualifierSpace :=
  { space with qualifiers := space.qualifiers.map (Formula.renameUnknowns rename) }

def QualifierMap.renameUnknowns (rename : String → String) (qualifiers : QualifierMap) :
    QualifierMap :=
  qualifiers.image rename (QualifierSpace.renameUnknowns rename)

def Candidate.renameUnknowns (rename : String → String) (candidate : Candidate) :
    Candidate where
  solution := Solution.renameUnknowns rename candidate.solution
  validClauses := candidate.validClauses.map (HornClause.renameUnknowns rename)
  invalidClauses := candidate.invalidClauses.map (HornClause.renameUnknowns rename)
  label := candidate.label

def Solution.InOrder (rename : String → String) (solution : Solution) : Prop :=
  ∀ unknown, KeepsOrder (Formula.renameUnknowns rename) (solution.chosen unknown).toList

def HornClause.InOrder (rename : String → String) (clause : HornClause) : Prop :=
  KeepsOrder rename clause.consequent.unknowns.toList

theorem filterM_map {ε α β : Type} (image : α → β) (keep : β → Except ε Bool)
    (elements : List α) :
    (elements.map image).filterM keep =
      (elements.filterM (keep ∘ image)).map (List.map image) := by
  have collected (rest : List α) : ∀ done : List α,
      List.filterAuxM keep (rest.map image) (done.map image) =
        (List.filterAuxM (keep ∘ image) rest done).map (List.map image) := by
    induction rest with
    | nil => exact fun _ => rfl
    | cons first rest induction =>
        intro done
        rw [List.map_cons, List.filterAuxM, List.filterAuxM, Function.comp_apply]
        cases keep (image first) with
        | error _ => rfl
        | ok keeps =>
            cases keeps with
            | false => exact induction done
            | true => exact induction (first :: done)
  unfold List.filterM
  have whole := collected elements []
  rw [List.map_nil] at whole
  rw [whole]
  cases List.filterAuxM (keep ∘ image) elements [] with
  | error _ => rfl
  | ok reversed => exact congrArg Except.ok List.map_reverse.symm

section Renaming

variable {rename : String → String} {bound : Int64} {clause : HornClause}
  {solution : Solution} {qualifiers : QualifierMap}

/-! ## Solutions -/

namespace Solution

theorem chosen_renameUnknowns (injective : Function.Injective rename) (unknown : String) :
    (solution.renameUnknowns rename).chosen (rename unknown) =
      (solution.chosen unknown).map (Formula.renameUnknowns rename) := by
  unfold chosen renameUnknowns
  rw [SortedMap.find?_image injective]
  cases solution.find? unknown <;> rfl

theorem InOrder.insert (inOrder : solution.InOrder rename) {unknown : String}
    {valuation : Valuation}
    (keeps : KeepsOrder (Formula.renameUnknowns rename) valuation.toList) :
    Solution.InOrder rename (solution.insert unknown valuation) := by
  intro other
  rw [chosen_insert]
  split
  · exact keeps
  · exact inOrder other

theorem InOrder.mono {lower : Solution} (inOrder : solution.InOrder rename)
    (below : lower.Below solution) : lower.InOrder rename :=
  fun unknown => (inOrder unknown).mono (below.fewer unknown)

theorem inOrder_withStrongest (known : solution.Known)
    (proposed : ∀ unknown space, qualifiers.find? unknown = some space →
      ∀ qualifier ∈ space.qualifiers, qualifier.Known) :
    (solution.withStrongest qualifiers).InOrder rename := by
  intro unknown
  have each : ∀ qualifier ∈ (solution.withStrongest qualifiers).chosen unknown,
      qualifier.Known := by
    intro qualifier member
    rcases chosen_withStrongest member with old | ⟨space, recorded, listed⟩
    · cases found : solution.find? unknown with
      | none =>
          rw [chosen, found] at old
          exact absurd old (SortedSet.not_mem_empty _)
      | some valuation =>
          rw [chosen_eq found] at old
          exact known unknown valuation found qualifier old
    · exact proposed unknown space recorded qualifier listed
  intro first member second other less
  rw [(each first member).renameUnknowns_eq, (each second other).renameUnknowns_eq]
  exact less

theorem weight_renameUnknowns (injective : Function.Injective rename)
    (inOrder : solution.InOrder rename) :
    (solution.renameUnknowns rename).weight = solution.weight := by
  have sizes : ∀ entry ∈ solution.entries,
      (entry.2.map (Formula.renameUnknowns rename)).size = entry.2.size := by
    intro entry member
    apply SortedSet.size_map
    have keeps := inOrder entry.1
    rwa [chosen_eq (SortedMap.find?_of_mem_entries member)] at keeps
  have permuted : SortedMap.values (solution.renameUnknowns rename) |>.Perm _ :=
    (SortedMap.entries_image injective).map Prod.snd
  unfold weight
  rw [List.Perm.foldr_eq' permuted
      (fun valuation _ other _ weight => Nat.add_left_comm other.size valuation.size weight),
    List.map_map, SortedMap.values, List.foldr_map, List.foldr_map]
  apply List.foldr_ext
  intro entry member weight
  exact congrArg (· + weight) (sizes entry member)

end Solution

/-! ## Clauses -/

theorem Formula.renameUnknowns_applySolution (injective : Function.Injective rename)
    (inOrder : solution.InOrder rename) (f : Formula) :
    (f.applySolution solution).renameUnknowns rename =
      (f.renameUnknowns rename).applySolution (solution.renameUnknowns rename) := by
  induction f using Formula.induction with
  | bool | int | var => rfl
  | unknown pending name =>
      have found : (solution.renameUnknowns rename).find? (rename name) = _ :=
        SortedMap.find?_image injective name
      rw [applySolution, renameUnknowns, applySolution, found]
      cases here : solution.find? name with
      | none => rfl
      | some valuation =>
          have keeps := inOrder name
          rw [Solution.chosen_eq here] at keeps
          simp only [Option.map_some, Valuation.conjunction, SortedSet.toList_map keeps]
          rw [renameUnknowns_substitute, renameUnknowns_conjunction]
  | unary op f induction | measure sort name f induction =>
      rw [applySolution, renameUnknowns, renameUnknowns, applySolution, induction]
  | binary op f g first second =>
      rw [applySolution, renameUnknowns, renameUnknowns, applySolution, first, second]
  | ite f g h first second third =>
      rw [applySolution, renameUnknowns, renameUnknowns, applySolution, first, second, third]

namespace HornClause

theorem holds_renameUnknowns (injective : Function.Injective rename)
    (nonnegative : 0 ≤ bound.toInt) (inOrder : solution.InOrder rename) :
    (clause.renameUnknowns rename).holds bound (solution.renameUnknowns rename) =
      clause.holds bound solution := by
  unfold holds applySolution renameUnknowns toFormula
  rw [← Formula.renameUnknowns_applySolution injective inOrder,
    ← Formula.renameUnknowns_applySolution injective inOrder,
    ← Formula.renameUnknowns_implies, Formula.isValid_renameUnknowns injective nonnegative]

theorem narrowed_renameUnknowns (injective : Function.Injective rename)
    (nonnegative : 0 ≤ bound.toInt) (inOrder : solution.InOrder rename) (unknown : String)
    (qualifier : Formula) :
    ((clause.renameUnknowns rename).narrowed (solution.renameUnknowns rename)
        (rename unknown) (qualifier.renameUnknowns rename)).isValid bound =
      (clause.narrowed solution unknown qualifier).isValid bound := by
  have single : SortedMap.insert (solution.renameUnknowns rename) (rename unknown)
      (.singleton (qualifier.renameUnknowns rename)) =
        Solution.renameUnknowns rename (solution.insert unknown (.singleton qualifier)) := by
    unfold Solution.renameUnknowns
    rw [SortedMap.image_insert injective, SortedSet.map_singleton]
  have inOrderSingle : Solution.InOrder rename
      (solution.insert unknown (.singleton qualifier)) :=
    inOrder.insert (keepsOrder_singleton _ _)
  unfold narrowed renameUnknowns
  rw [single, ← Formula.renameUnknowns_applySolution injective inOrder,
    ← Formula.renameUnknowns_applySolution injective inOrderSingle,
    ← Formula.renameUnknowns_implies, Formula.isValid_renameUnknowns injective nonnegative]

theorem impliedQualifiers_renameUnknowns (injective : Function.Injective rename)
    (nonnegative : 0 ≤ bound.toInt) (inOrder : solution.InOrder rename) (unknown : String) :
    (clause.renameUnknowns rename).impliedQualifiers bound (solution.renameUnknowns rename)
        (rename unknown) =
      (clause.impliedQualifiers bound solution unknown).map
        (SortedSet.map (Formula.renameUnknowns rename)) := by
  have decisions : (fun qualifier => ((clause.renameUnknowns rename).narrowed
        (solution.renameUnknowns rename) (rename unknown) qualifier).isValid bound) ∘
          Formula.renameUnknowns rename =
      fun qualifier => (clause.narrowed solution unknown qualifier).isValid bound :=
    funext (narrowed_renameUnknowns injective nonnegative inOrder unknown)
  rw [impliedQualifiers_eq, impliedQualifiers_eq, Solution.chosen_renameUnknowns injective,
    SortedSet.toList_map (inOrder unknown), filterM_map, decisions]
  cases (solution.chosen unknown).toList.filterM fun qualifier =>
      (clause.narrowed solution unknown qualifier).isValid bound with
  | error trap => rfl
  | ok implied => exact congrArg Except.ok (SortedSet.map_ofList implied).symm

theorem weakenFor_renameUnknowns (injective : Function.Injective rename)
    (nonnegative : 0 ≤ bound.toInt) (inOrder : solution.InOrder rename)
    (unknowns : List String) :
    (clause.renameUnknowns rename).weakenFor bound (unknowns.map rename)
        (solution.renameUnknowns rename) =
      (clause.weakenFor bound unknowns solution).map (Solution.renameUnknowns rename) := by
  induction unknowns generalizing solution with
  | nil => rfl
  | cons unknown rest induction =>
      have chosen : (SortedMap.find? (solution.renameUnknowns rename) (rename unknown)).getD ∅ =
          SortedSet.map (Formula.renameUnknowns rename) (solution.chosen unknown) :=
        Solution.chosen_renameUnknowns injective unknown
      rw [List.map_cons, weakenFor, weakenFor,
        impliedQualifiers_renameUnknowns injective nonnegative inOrder, chosen]
      cases selected : clause.impliedQualifiers bound solution unknown with
      | error trap => rfl
      | ok implied =>
          rcases of_impliedQualifiers_eq_ok selected with ⟨passes, _, rfl⟩
          have keeps : KeepsOrder (Formula.renameUnknowns rename)
              ((solution.chosen unknown).filter passes).toList :=
            (inOrder unknown).mono fun _ member => (List.mem_filter.mp member).1
          change (if (SortedSet.map (Formula.renameUnknowns rename)
              ((solution.chosen unknown).filter passes)).size = (SortedSet.map
                (Formula.renameUnknowns rename) (solution.chosen unknown)).size then _
              else _) = Except.map _ (if ((solution.chosen unknown).filter passes).size =
                (solution.chosen unknown).size then _ else _)
          rw [SortedSet.size_map keeps, SortedSet.size_map (inOrder unknown)]
          split
          · exact induction inOrder
          · rw [Solution.renameUnknowns, ← SortedMap.image_insert injective]
            exact induction (inOrder.insert keeps)

end HornClause

/-! ## Weakening -/

theorem HornClause.firstBroken_renameUnknowns (injective : Function.Injective rename)
    (nonnegative : 0 ≤ bound.toInt) (inOrder : solution.InOrder rename)
    (clauses : List HornClause) :
    firstBroken bound (solution.renameUnknowns rename)
        (clauses.map (HornClause.renameUnknowns rename)) =
      (firstBroken bound solution clauses).map (Option.map (HornClause.renameUnknowns rename)) := by
  induction clauses with
  | nil => rfl
  | cons clause rest induction =>
      rw [List.map_cons, firstBroken, firstBroken,
        holds_renameUnknowns injective nonnegative inOrder, induction]
      cases clause.holds bound solution with
      | error trap => rfl
      | ok holds => cases holds <;> rfl

theorem HornClause.InOrder.unknowns (inOrder : clause.InOrder rename) :
    (clause.renameUnknowns rename).consequent.unknowns.toList =
      clause.consequent.unknowns.toList.map rename := by
  rw [← SortedSet.toList_map inOrder, Formula.unknowns, Formula.unknowns,
    SortedSet.map_ofList, renameUnknowns, Formula.unknownOccurrences_renameUnknowns]

theorem Solution.weaken_renameUnknowns (injective : Function.Injective rename)
    (nonnegative : 0 ≤ bound.toInt) {clauses : List HornClause}
    (clausesInOrder : ∀ clause ∈ clauses, clause.InOrder rename)
    (inOrder : solution.InOrder rename) :
    (solution.renameUnknowns rename).weaken bound
        (clauses.map (HornClause.renameUnknowns rename)) =
      (solution.weaken bound clauses).map (Option.map (Solution.renameUnknowns rename)) := by
  induction solution using weaken.induct with
  | case1 solution induction =>
      rw [weaken, weaken, HornClause.firstBroken_renameUnknowns injective nonnegative inOrder]
      cases checked : HornClause.firstBroken bound solution clauses with
      | error trap => rfl
      | ok first =>
          cases first with
          | none => rfl
          | some clause =>
              have listed := (HornClause.of_firstBroken_eq_some checked).1
              change ((clause.renameUnknowns rename).weakenFor bound
                (clause.renameUnknowns rename).consequent.unknowns.toList _ >>= _) =
                  Except.map _ (clause.weakenFor bound _ solution >>= _)
              rw [(clausesInOrder clause listed).unknowns,
                HornClause.weakenFor_renameUnknowns injective nonnegative inOrder]
              cases dropped : clause.weakenFor bound clause.consequent.unknowns.toList
                  solution with
              | error trap => rfl
              | ok weaker =>
                  have weakerInOrder := inOrder.mono (HornClause.below_weakenFor dropped)
                  change (if (weaker.renameUnknowns rename).weight <
                      (solution.renameUnknowns rename).weight then _ else _) =
                    Except.map _ (if weaker.weight < solution.weight then _ else _)
                  rw [weight_renameUnknowns injective inOrder,
                    weight_renameUnknowns injective weakerInOrder]
                  split
                  · exact induction weaker ‹_› weakerInOrder
                  · rfl

theorem Solution.withStrongest_renameUnknowns (injective : Function.Injective rename) :
    (solution.renameUnknowns rename).withStrongest (qualifiers.renameUnknowns rename) =
      (solution.withStrongest qualifiers).renameUnknowns rename := by
  apply SortedMap.eq_image injective
  · intro unknown
    rw [find?_withStrongest, find?_withStrongest, renameUnknowns, QualifierMap.renameUnknowns,
      SortedMap.find?_image injective, SortedMap.find?_image injective]
    cases solution.find? unknown with
    | some valuation => rfl
    | none =>
        cases qualifiers.find? unknown with
        | none => rfl
        | some space =>
            simp only [Option.map_some, Option.map_none, Option.none_or,
              QualifierSpace.renameUnknowns, ← List.map_take, SortedSet.map_ofList]
  · intro unknown fresh
    rw [find?_withStrongest, renameUnknowns, QualifierMap.renameUnknowns,
      SortedMap.find?_image_of_ne fresh, SortedMap.find?_image_of_ne fresh]
    rfl

/-! ## Clauses in Horn form -/

theorem Formula.IsPremise.renameUnknowns {f : Formula} (premise : f.IsPremise) :
    (f.renameUnknowns rename).IsPremise := by
  induction premise with
  | known known => exact .known known.renameUnknowns
  | unknown pending name => exact .unknown _ _
  | and _ _ first second => exact .and first second

theorem Formula.IsConclusion.renameUnknowns {f : Formula} (conclusion : f.IsConclusion) :
    (f.renameUnknowns rename).IsConclusion := by
  cases conclusion with
  | known known => exact .known known.renameUnknowns
  | unknown pending name => exact .unknown _ _
  | knownOr known pending name => exact .knownOr known.renameUnknowns _ _
  | orKnown known pending name => exact .orKnown known.renameUnknowns _ _

namespace HornClause.InHornForm

theorem renameUnknowns (form : clause.InHornForm) :
    (clause.renameUnknowns rename).InHornForm :=
  ⟨form.premise.renameUnknowns, form.conclusion.renameUnknowns⟩

theorem inOrder (form : clause.InHornForm) : clause.InOrder rename := by
  unfold HornClause.InOrder
  rcases form.conclusion.unknowns_cases with known | ⟨unknown, alone, _⟩
  · rw [Formula.unknowns, known]
    exact fun _ => (absurd · List.not_mem_nil)
  · rw [alone]
    exact keepsOrder_singleton _ _

end HornClause.InHornForm

/-! ## Refinement -/

/-- Under their new names the solver comes in the same order to the qualifiers that it
starts from, to the stored clauses and to the unknowns of a consequent. The latter two do
not matter to clauses in Horn form. -/
structure Candidate.InOrder (rename : String → String) (clauses : List HornClause)
    (qualifiers : QualifierMap) (candidate : Candidate) : Prop where
  chosen : (candidate.solution.withStrongest qualifiers).InOrder rename
  clauses :
    KeepsOrder (HornClause.renameUnknowns rename) candidate.validClauses.toList ∧
        (∀ clause ∈ candidate.validClauses.toList ++ clauses, clause.InOrder rename) ∨
      ∀ clause ∈ candidate.validClauses.toList ++ clauses, clause.InHornForm

namespace Candidate

variable {clauses : List HornClause} {candidate : Candidate}

theorem withValid_renameUnknowns :
    (candidate.withValid clauses).renameUnknowns rename =
      (candidate.renameUnknowns rename).withValid
        (clauses.map (HornClause.renameUnknowns rename)) := by
  unfold withValid renameUnknowns
  rw [SortedSet.map_insertMany]

theorem InOrder.weaken (inOrder : candidate.InOrder rename clauses qualifiers)
    (injective : Function.Injective rename) (nonnegative : 0 ≤ bound.toInt)
    {outcome renamed : Option Solution}
    (ran : (candidate.solution.withStrongest qualifiers).weaken bound
      (candidate.validClauses.toList ++ clauses) = .ok outcome)
    (ranRenamed : ((candidate.solution.withStrongest qualifiers).renameUnknowns rename).weaken
      bound ((candidate.renameUnknowns rename).validClauses.toList ++
        clauses.map (HornClause.renameUnknowns rename)) = .ok renamed) :
    renamed = outcome.map (Solution.renameUnknowns rename) := by
  have clausesInOrder : ∀ clause ∈ candidate.validClauses.toList ++ clauses,
      clause.InOrder rename :=
    inOrder.clauses.elim And.right fun forms clause member => (forms clause member).inOrder
  have images := Solution.weaken_renameUnknowns injective nonnegative clausesInOrder
    inOrder.chosen
  rw [ran, List.map_append] at images
  -- The stored clauses come in the same order, or the order does not matter to them.
  rcases inOrder.clauses with ⟨stored, _⟩ | forms
  · change (Solution.renameUnknowns rename _).weaken bound
      ((candidate.validClauses.map _).toList ++ _) = _ at ranRenamed
    rw [SortedSet.toList_map stored, images] at ranRenamed
    exact (Except.ok.inj ranRenamed).symm
  · have listed (clause : HornClause) :
        clause ∈ candidate.validClauses.toList.map (HornClause.renameUnknowns rename) ++
            clauses.map (HornClause.renameUnknowns rename) ↔
          clause ∈ (candidate.renameUnknowns rename).validClauses.toList ++
            clauses.map (HornClause.renameUnknowns rename) := by
      rw [List.mem_append, List.mem_append, SortedSet.mem_toList, renameUnknowns,
        SortedSet.mem_map, List.mem_map]
      rfl
    have imageForms : ∀ clause ∈
        candidate.validClauses.toList.map (HornClause.renameUnknowns rename) ++
          clauses.map (HornClause.renameUnknowns rename), clause.InHornForm := by
      intro clause member
      rw [← List.map_append] at member
      rcases List.mem_map.mp member with ⟨original, inside, rfl⟩
      exact (forms original inside).renameUnknowns
    have renamedForms : ∀ clause ∈ (candidate.renameUnknowns rename).validClauses.toList ++
        clauses.map (HornClause.renameUnknowns rename), clause.InHornForm :=
      fun clause member => imageForms clause ((listed clause).mpr member)
    apply Option.ext
    intro final
    rw [Solution.weaken_eq_some_iff nonnegative renamedForms ranRenamed,
      Solution.weaken_eq_some_iff nonnegative imageForms images]
    exact ⟨fun greatest => greatest.congr fun clause => (listed clause).symm,
      fun greatest => greatest.congr listed⟩

theorem InOrder.refine (inOrder : candidate.InOrder rename clauses qualifiers)
    (injective : Function.Injective rename) (nonnegative : 0 ≤ bound.toInt)
    {outcome renamed : Option Candidate}
    (ran : candidate.refine bound clauses qualifiers = .ok outcome)
    (ranRenamed : (candidate.renameUnknowns rename).refine bound
      (clauses.map (HornClause.renameUnknowns rename)) (qualifiers.renameUnknowns rename) =
        .ok renamed) :
    renamed = outcome.map (Candidate.renameUnknowns rename) := by
  rcases Except.exists_of_bind_ok ran with ⟨result, weakened, equal⟩
  rcases Except.exists_of_bind_ok ranRenamed with ⟨other, weakenedRenamed, equalRenamed⟩
  have start : Solution.withStrongest (qualifiers.renameUnknowns rename)
      (candidate.renameUnknowns rename).solution = _ :=
    Solution.withStrongest_renameUnknowns injective
  rw [start] at weakenedRenamed
  cases inOrder.weaken injective nonnegative weakened weakenedRenamed
  cases result with
  | none =>
      cases equal
      cases equalRenamed
      rfl
  | some solution =>
      cases equal
      cases equalRenamed
      rw [Option.map_some, withValid_renameUnknowns]
      rfl

theorem refineAll_renameUnknowns (injective : Function.Injective rename)
    (nonnegative : 0 ≤ bound.toInt) {candidates survivors renamed : List Candidate}
    (inOrder : ∀ candidate ∈ candidates, candidate.InOrder rename clauses qualifiers)
    (ran : refineAll bound clauses qualifiers candidates = .ok survivors)
    (ranRenamed : refineAll bound (clauses.map (HornClause.renameUnknowns rename))
      (qualifiers.renameUnknowns rename) (candidates.map (Candidate.renameUnknowns rename)) =
        .ok renamed) :
    renamed = survivors.map (Candidate.renameUnknowns rename) := by
  induction candidates generalizing survivors renamed with
  | nil =>
      cases ran
      cases ranRenamed
      rfl
  | cons candidate rest induction =>
      rcases List.forall_mem_cons.mp inOrder with ⟨here, others⟩
      rcases Except.exists_of_bind_ok ran with ⟨first, refined, ran⟩
      rcases Except.exists_of_bind_ok ranRenamed with ⟨other, refinedRenamed, ranRenamed⟩
      cases here.refine injective nonnegative refined refinedRenamed
      cases first with
      | none => exact induction others ran ranRenamed
      | some survivor =>
          rcases Except.exists_of_bind_ok ran with ⟨later, ranRest, equal⟩
          rcases Except.exists_of_bind_ok ranRenamed with ⟨laterRenamed, ranRestRenamed, equalRenamed⟩
          cases equal
          cases equalRenamed
          rw [induction others ranRest ranRestRenamed, List.map_cons]

end Candidate

/-- A bounded solver with other names for the unknowns keeps the same candidates with the
same solutions, if the names keep what it meets in order. -/
theorem Solver.renamed_refinement (injective : Function.Injective rename)
    (nonnegative : 0 ≤ bound.toInt) {clauses : List HornClause} {candidates : List Candidate}
    (inOrder : ∀ candidate ∈ candidates, candidate.InOrder rename clauses qualifiers)
    {program : Program} {tally : BoundedTally}
    (proper : (((bounded bound).refine clauses qualifiers program candidates).run tally).1 ≠
      .error (.trapped .negationOverflow))
    (properRenamed : (((bounded bound).refine
        (clauses.map (HornClause.renameUnknowns rename)) (qualifiers.renameUnknowns rename)
        program (candidates.map (Candidate.renameUnknowns rename))).run tally).1 ≠
      .error (.trapped .negationOverflow)) :
    ∃ survivors after,
      ((bounded bound).refine clauses qualifiers program candidates).run tally =
        (.ok survivors, after) ∧
      ((bounded bound).refine (clauses.map (HornClause.renameUnknowns rename))
          (qualifiers.renameUnknowns rename) program
          (candidates.map (Candidate.renameUnknowns rename))).run tally =
        (.ok (survivors.map (Candidate.renameUnknowns rename)), after) := by
  rw [answer_bounded] at proper properRenamed
  cases ran : Candidate.refineAll bound clauses qualifiers candidates with
  | error trap => exact absurd (ran ▸ rfl) proper
  | ok survivors =>
      cases ranRenamed : Candidate.refineAll bound
          (clauses.map (HornClause.renameUnknowns rename)) (qualifiers.renameUnknowns rename)
          (candidates.map (Candidate.renameUnknowns rename)) with
      | error trap => exact absurd (ranRenamed ▸ rfl) properRenamed
      | ok renamed =>
          cases Candidate.refineAll_renameUnknowns injective nonnegative inOrder ran ranRenamed
          refine ⟨survivors, _, run_bounded ran program tally, ?_⟩
          rw [run_bounded ranRenamed, List.isEmpty_map]

end Renaming

namespace Solver

/-- The ninth and the tenth unknown, the latter of which comes first. -/
def exchange : String → String := Equiv.swap "_c9" "_c10"

def mutualClauses : List HornClause := [
  ⟨.unknown [] "_c9", .unknown [] "_c10"⟩, ⟨.unknown [] "_c10", .unknown [] "_c9"⟩]

def mutualQualifiers : QualifierMap := .ofList [
  ("_c9", .ofList [
    .atLeast Solution.counter (.int 0), .lessThan Solution.counter (.int 1)]),
  ("_c10", .ofList [
    .atLeast Solution.counter (.int 0), .lessThan Solution.counter (.int 2)])]

/-- The stored clauses change places, but are in Horn form. -/
theorem mutual_clauses_renamed :
    let candidate : Candidate :=
      { validClauses := .ofList mutualClauses, label := "0" }
    let clauses : List HornClause :=
      [⟨.equals Solution.counter (.int 1), .unknown [] "_c9"⟩]
    ¬ KeepsOrder (HornClause.renameUnknowns exchange) candidate.validClauses.toList ∧
      Function.Injective exchange ∧
      candidate.InOrder exchange clauses mutualQualifiers ∧
      ∃ survivors after, survivors ≠ [] ∧
        ((bounded 2).refine clauses mutualQualifiers default [candidate]).run {} =
          (.ok survivors, after) ∧
        ((bounded 2).refine (clauses.map (HornClause.renameUnknowns exchange))
            (mutualQualifiers.renameUnknowns exchange) default
            ([candidate].map (Candidate.renameUnknowns exchange))).run {} =
          (.ok (survivors.map (Candidate.renameUnknowns exchange)), after) := by
  intro candidate clauses
  have injective : Function.Injective exchange := (Equiv.swap "_c9" "_c10").injective
  have known : ∀ unknown space, mutualQualifiers.find? unknown = some space →
      ∀ qualifier ∈ space.qualifiers, qualifier.Known := by
    intro unknown space found
    have listed := SortedMap.mem_of_mem_entries_ofList (SortedMap.mem_entries_of_find? found)
    simp only [List.mem_cons, List.not_mem_nil, or_false, Prod.mk.injEq] at listed
    rcases listed with ⟨_, rfl⟩ | ⟨_, rfl⟩
    · decide
    · decide
  have inOrder : candidate.InOrder exchange clauses mutualQualifiers := by
    refine ⟨Solution.inOrder_withStrongest nofun known, .inr ?_⟩
    intro clause member
    rcases List.mem_append.mp member with stored | new
    · have listed := SortedSet.mem_ofList.mp (SortedSet.mem_toList.mp stored)
      simp only [mutualClauses, List.mem_cons, List.not_mem_nil, or_false] at listed
      rcases listed with rfl | rfl
      · exact ⟨.unknown _ _, .unknown _ _⟩
      · exact ⟨.unknown _ _, .unknown _ _⟩
    · rw [List.mem_singleton.mp new]
      exact ⟨.known (by decide), .unknown _ _⟩
  have ran : (((bounded 2).refine clauses mutualQualifiers default [candidate]).run
      {}).1.toOption.map List.length = some 1 := by
    decide +kernel
  have ranRenamed : (((bounded 2).refine (clauses.map (HornClause.renameUnknowns exchange))
      (mutualQualifiers.renameUnknowns exchange) default
      ([candidate].map (Candidate.renameUnknowns exchange))).run {}).1.toOption.isSome =
        true := by
    decide +kernel
  rcases Option.map_eq_some_iff.mp ran with ⟨_, answered, _⟩
  rcases Option.isSome_iff_exists.mp ranRenamed with ⟨_, answeredRenamed⟩
  rcases renamed_refinement injective (by decide) (List.forall_mem_singleton.mpr inOrder)
      (Except.ne_error_of_toOption answered _)
      (Except.ne_error_of_toOption answeredRenamed _) with
    ⟨survivors, after, original, renamed⟩
  refine ⟨by decide +kernel, injective, inOrder, survivors, after, ?_, original, renamed⟩
  rintro rfl
  rw [original] at ran
  cases ran

/-! ## Names that matter -/

def answer (bound : Int64) (clauses : List HornClause) (qualifiers : QualifierMap)
    (candidate : Candidate) : Option (List Candidate) :=
  (((bounded bound).refine clauses qualifiers default [candidate]).run {}).1.toOption

/-- The solver answers both times, but not the renamed question with the renamed answer. -/
def DependsOnNames (bound : Int64) (rename : String → String) (clauses : List HornClause)
    (qualifiers : QualifierMap) (candidate : Candidate) : Prop :=
  let original := answer bound clauses qualifiers candidate
  let renamed := answer bound (clauses.map (HornClause.renameUnknowns rename))
    (qualifiers.renameUnknowns rename) (candidate.renameUnknowns rename)
  original.isSome ∧ renamed.isSome ∧
    renamed ≠ original.map (List.map (Candidate.renameUnknowns rename))

def exchangeQualifiers : QualifierMap :=
  .ofList [("_c9", .ofList [.var .bool "p"]), ("_c10", .ofList [.var .bool "q"])]

def eitherClause : HornClause :=
  ⟨.top, .binary .or (.unknown [] "_c9") (.unknown [] "_c10")⟩

/-- Each of two predicates is needed unless the other holds. -/
def opposedClauses : List HornClause := [
  ⟨.unary .not (.unknown [] "_c9"), .unknown [] "_c10"⟩,
  ⟨.unary .not (.unknown [] "_c10"), .unknown [] "_c9"⟩]

def spelledClause : HornClause :=
  ⟨.atLeast (.measure .int "len"
      (.binary .and (.unknown [] "_c10") (.unknown [] "_c9"))) (.int 0),
    .atLeast (.measure .int "len" (.unknown [] "_u0")) (.int 0)⟩

/-- The order of the unknowns of a consequent, that of the stored clauses and that of the
qualifiers all make a difference. -/
theorem answers_depend_on_names :
    Function.Injective exchange ∧
      DependsOnNames 1 exchange [eitherClause] exchangeQualifiers { label := "0" } ∧
      DependsOnNames 1 exchange [] exchangeQualifiers
        { validClauses := .ofList opposedClauses, label := "0" } ∧
      DependsOnNames 1 exchange [spelledClause]
        (.singleton "_u0" (.ofList [.unknown [] "_c9", .unknown [] "_c10"]))
        { label := "0" } := by
  refine ⟨(Equiv.swap "_c9" "_c10").injective, ?_, ?_, ?_⟩
  · unfold DependsOnNames
    decide +kernel
  · unfold DependsOnNames
    decide +kernel
  · unfold DependsOnNames
    decide +kernel

end Solver

end Inhabit
