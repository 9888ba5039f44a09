import Inhabit.Proofs.Solving.Survivors
import Inhabit.Proofs.Validity.Connectives
import Mathlib.Data.List.Basic
import Mathlib.Data.List.Perm.Subperm

/-! Pruned spaces of qualifiers.

Pruning keeps the first occurrence of every qualifier but the literal `top`. What it keeps
of the first qualifiers of a space is therefore the beginning of what it keeps of them all,
and is no longer than they were. So a predicate that starts with the first qualifiers loses
none of them by pruning; where some are dropped, others move up and make it stronger. -/

namespace Inhabit

/-! ## First occurrences -/

section FirstOccurrences

variable {α : Type} [DecidableEq α]

theorem isPrefix_eraseDups {first all : List α} (isPrefix : first <+: all) :
    first.eraseDups <+: all.eraseDups := by
  obtain ⟨rest, rfl⟩ := isPrefix
  rw [List.eraseDups_append]
  exact List.prefix_append _ _

theorem eraseDups_concat (elements : List α) (last : α) :
    (elements ++ [last]).eraseDups =
      elements.eraseDups ++ if last ∈ elements then [] else [last] := by
  rw [List.eraseDups_append]
  split <;> simp [List.removeAll, List.eraseDups_cons, *]

theorem eraseDups_inOrder (elements : List α) :
    elements.eraseDups.Pairwise fun first second =>
      elements.idxOf first < elements.idxOf second := by
  -- A further element is left only if it occurs for the first time, and then comes last.
  induction elements using List.reverseRecOn with
  | nil => exact .nil
  | append_singleton elements last induction =>
      have earlier {element : α} (member : element ∈ elements.eraseDups) :
          (elements ++ [last]).idxOf element = elements.idxOf element :=
        List.idxOf_append_of_mem (List.mem_eraseDups.mp member)
      have before : elements.eraseDups.Pairwise fun first second =>
          (elements ++ [last]).idxOf first < (elements ++ [last]).idxOf second :=
        induction.imp_of_mem fun first second less => by rwa [earlier first, earlier second]
      rw [eraseDups_concat]
      split
      case isTrue => rwa [List.append_nil]
      case isFalse new =>
        refine List.pairwise_append.mpr ⟨before, List.pairwise_singleton _ _, ?_⟩
        intro first member second isLast
        rw [List.mem_singleton.mp isLast, earlier member, List.idxOf_append_of_notMem new]
        have inside := List.idxOf_lt_length_of_mem (List.mem_eraseDups.mp member)
        omega

theorem nodup_eraseDups (elements : List α) : elements.eraseDups.Nodup :=
  (eraseDups_inOrder elements).imp fun less same => by simp [same] at less

theorem eraseDups_eq_self {elements : List α} (distinct : elements.Nodup) :
    elements.eraseDups = elements := by
  induction elements using List.reverseRecOn with
  | nil => rfl
  | append_singleton elements last induction =>
      obtain ⟨others, _, apart⟩ := List.nodup_append.mp distinct
      have new : last ∉ elements := fun member =>
        apart last member last (List.mem_singleton_self last) rfl
      rw [eraseDups_concat, induction others, if_neg new]

end FirstOccurrences

/-! ## What pruning keeps -/

namespace QualifierSpace

/-- The qualifiers that pruning keeps of a list. -/
def kept (qualifiers : List Formula) : List Formula :=
  qualifiers.eraseDups.filter fun qualifier => !qualifier.isTrue

variable {qualifiers : List Formula} {qualifier : Formula}

theorem mem_kept : qualifier ∈ kept qualifiers ↔ qualifier ∈ qualifiers ∧ qualifier ≠ .top := by
  have literal : (!qualifier.isTrue) = true ↔ qualifier ≠ .top := by
    rw [Bool.not_eq_true', Bool.eq_false_iff]
    exact not_congr ⟨Formula.eq_top_of_isTrue, fun same => same ▸ rfl⟩
  rw [kept, List.mem_filter, List.mem_eraseDups, literal]

theorem kept_inOrder (qualifiers : List Formula) :
    (kept qualifiers).Pairwise fun first second =>
      qualifiers.idxOf first < qualifiers.idxOf second :=
  (eraseDups_inOrder qualifiers).filter _

theorem nodup_kept (qualifiers : List Formula) : (kept qualifiers).Nodup :=
  (nodup_eraseDups qualifiers).filter _

theorem kept_kept (qualifiers : List Formula) : kept (kept qualifiers) = kept qualifiers := by
  rw [kept, eraseDups_eq_self (nodup_kept qualifiers), kept, List.filter_filter]
  simp only [Bool.and_self]

theorem length_kept_le (qualifiers : List Formula) :
    (kept qualifiers).length ≤ qualifiers.length :=
  (List.subperm_of_subset (nodup_kept qualifiers) fun _ member =>
    (mem_kept.mp member).1).length_le

theorem isPrefix_kept {first all : List Formula} (isPrefix : first <+: all) :
    kept first <+: kept all :=
  (isPrefix_eraseDups isPrefix).filter _

theorem prune_eq (space : QualifierSpace) :
    space.prune = ⟨kept space.qualifiers, min space.maxCount (kept space.qualifiers).length⟩ :=
  rfl

theorem prune_prune (space : QualifierSpace) : space.prune.prune = space.prune := by
  rw [prune_eq, prune_eq]
  simp only [kept_kept, Nat.min_assoc, Nat.min_self]

theorem mem_take_prune {space : QualifierSpace}
    (counts : qualifier ∈ space.qualifiers.take space.maxCount)
    (nontrivial : qualifier ≠ .top) :
    qualifier ∈ space.prune.qualifiers.take space.prune.maxCount := by
  have isPrefix : kept (space.qualifiers.take space.maxCount) <+: kept space.qualifiers :=
    isPrefix_kept (List.take_prefix _ _)
  have short : (kept (space.qualifiers.take space.maxCount)).length ≤ space.prune.maxCount :=
    le_min ((length_kept_le _).trans (List.length_take_le _ _)) isPrefix.length_le
  exact (List.prefix_take_iff.mpr ⟨isPrefix, short⟩).subset (mem_kept.mpr ⟨counts, nontrivial⟩)

/-! ## Strength -/

def strongest (space : QualifierSpace) : Valuation :=
  .ofList (space.qualifiers.take space.maxCount)

theorem strongest_of_prune {space : QualifierSpace} {pending : Substitution}
    {values : Formula → Int}
    (holds : (space.prune.strongest.conjunction.substitute pending).Holds values) :
    (space.strongest.conjunction.substitute pending).Holds values := by
  have each := Formula.holds_conjunction_substitute.mp holds
  refine Formula.holds_conjunction_substitute.mpr fun qualifier member => ?_
  have counts : qualifier ∈ space.qualifiers.take space.maxCount := SortedSet.mem_ofList.mp member
  by_cases trivial : qualifier = .top
  · subst trivial
    exact Formula.holds_top
  · exact each qualifier (SortedSet.mem_ofList.mpr (mem_take_prune counts trivial))

/-- A bounded solver prunes a space to its distinct qualifiers other than `top`, in the order
of their first occurrences, and to the same space when it is asked again. All qualifiers but
`top` that counted before still count, so that the predicate which refining gives to an
unknown at first is no weaker than it was. -/
theorem pruning_never_weakens (space : QualifierSpace) :
    (∀ bound tally,
      ((Solver.bounded bound).prune space).run tally = (.ok space.prune, tally)) ∧
    ((∀ qualifier, qualifier ∈ space.prune.qualifiers ↔
        qualifier ∈ space.qualifiers ∧ qualifier ≠ .top) ∧
      space.prune.qualifiers.Nodup ∧
      space.prune.qualifiers.Pairwise fun first second =>
        space.qualifiers.idxOf first < space.qualifiers.idxOf second) ∧
    space.prune.prune = space.prune ∧
    (∀ qualifier ∈ space.qualifiers.take space.maxCount, qualifier ≠ .top →
      qualifier ∈ space.prune.qualifiers.take space.prune.maxCount) ∧
    ∀ (spaces pruned : QualifierMap) (solution : Solution) (unknown : String),
      spaces.find? unknown = some space → pruned.find? unknown = some space.prune →
      solution.find? unknown = none →
      (solution.withStrongest spaces).find? unknown = some space.strongest ∧
      (solution.withStrongest pruned).find? unknown = some space.prune.strongest ∧
      ∀ pending values, (space.prune.strongest.conjunction.substitute pending).Holds values →
        (space.strongest.conjunction.substitute pending).Holds values := by
  refine ⟨fun _ _ => rfl, ⟨fun _ => mem_kept, nodup_kept _, kept_inOrder _⟩, space.prune_prune,
    fun _ => mem_take_prune, ?_⟩
  intro spaces pruned solution unknown found foundPruned unchosen
  refine ⟨?_, ?_, fun _ _ => strongest_of_prune⟩
  · rw [Solution.find?_withStrongest, unchosen, found]
    rfl
  · rw [Solution.find?_withStrongest, unchosen, foundPruned]
    rfl

/-- Of the first four qualifiers one is `top` and one a repetition. The last qualifier is not
among them. -/
def repeatedBounds : QualifierSpace :=
  ⟨[.top, .atLeast (.value .int) (.int 0), .atLeast (.value .int) (.int 0),
    .atLeast (.value .int) (.var .int "n"), .top, .atLeast (.value .int) (.var .int "n"),
    .lessThan (.value .int) (.int 9)], 4⟩

/-- One qualifier fewer counts after pruning, and yet the last one is among them now. -/
theorem repeatedBounds_pruned :
    let positive : Formula := .atLeast (.value .int) (.int 0)
    let above : Formula := .atLeast (.value .int) (.var .int "n")
    let below : Formula := .lessThan (.value .int) (.int 9)
    let spaces : QualifierMap := .ofList [("u", repeatedBounds)]
    let pruned : QualifierMap := .ofList [("u", repeatedBounds.prune)]
    let weak : Valuation := .ofList [above, positive, .top]
    let strong : Valuation := .ofList [above, below, positive]
    let values : Formula → Int := fun _ => 5
    repeatedBounds.prune = ⟨[positive, above, below], 3⟩ ∧
      repeatedBounds.prune.prune = repeatedBounds.prune ∧
      above ∈ repeatedBounds.qualifiers.take repeatedBounds.maxCount ∧ above ≠ .top ∧
      above ∈ repeatedBounds.prune.qualifiers.take repeatedBounds.prune.maxCount ∧
      (Solution.withStrongest spaces ∅).find? "u" = some weak ∧
      (Solution.withStrongest pruned ∅).find? "u" = some strong ∧
      (strong.conjunction.substitute [(valueName, .var .int "y")]).Holds values ∧
      (weak.conjunction.substitute [(valueName, .var .int "y")]).Holds values := by
  intro positive above below spaces pruned weak strong values
  obtain ⟨_, _, again, counting, starts⟩ := repeatedBounds.pruning_never_weakens
  have counts : above ∈ repeatedBounds.qualifiers.take repeatedBounds.maxCount := by decide
  have isWeak : repeatedBounds.strongest = weak := by decide
  have isStrong : repeatedBounds.prune.strongest = strong := by decide
  have holds : (strong.conjunction.substitute [(valueName, .var .int "y")]).Holds values :=
    ⟨1, rfl, by decide⟩
  obtain ⟨first, second, stronger⟩ := starts spaces pruned ∅ "u" rfl rfl rfl
  rw [isWeak] at first stronger
  rw [isStrong] at second stronger
  exact ⟨by decide, again, counts, nofun, counting above counts nofun, first, second, holds,
    stronger _ _ holds⟩

end QualifierSpace

end Inhabit
