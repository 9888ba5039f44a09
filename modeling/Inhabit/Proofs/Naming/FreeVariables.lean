import Inhabit.Proofs.Naming.Types

/-! What is free after a substitution, also where unknowns await their predicates.

An unknown records each substitution, so that afterwards it speaks of what was put in,
whether anything has been replaced or not. -/

namespace Inhabit

theorem Formula.variableOccurrencesEntries_eq_flatMap (entries : List (String × Formula)) :
    variableOccurrencesEntries entries =
      entries.flatMap fun entry => entry.2.variableOccurrences := by
  induction entries with
  | nil => rfl
  | cons _ _ induction => exact congrArg (_ ++ ·) induction

section Substitute

variable {substitution : Substitution} {name : String}

mutual

theorem Formula.of_mem_substitute :
    ∀ f : Formula, name ∈ (f.substitute substitution).variableOccurrences →
      (∃ entry ∈ substitution, name ∈ entry.2.variableOccurrences) ∨
        (name ∈ f.variableOccurrences ∧ Entries.find? name substitution = none)
  | .bool _, member | .int _, member => nomatch member
  | .var sort other, member => by
      rw [substitute] at member
      cases found : Entries.find? other substitution with
      | none =>
          rw [found] at member
          cases List.mem_singleton.mp member
          exact .inr ⟨List.mem_singleton_self _, found⟩
      | some replacement =>
          rw [found] at member
          exact .inl ⟨(other, replacement), Entries.mem_of_find? found, member⟩
  | .unknown pending other, member => by
      rw [substitute, variableOccurrences, variableOccurrencesEntries_eq_flatMap] at member
      rcases List.mem_flatMap.mp member with ⟨entry, inExtended, occurs⟩
      rcases Substitution.mem_extend inExtended with inPending | inSubstitution
      · rw [variableOccurrences]
        apply of_mem_substituteEntries pending
        rw [variableOccurrencesEntries_eq_flatMap]
        exact List.mem_flatMap.mpr ⟨entry, inPending, occurs⟩
      · exact .inl ⟨entry, inSubstitution, occurs⟩
  | .unary _ f, member | .measure _ _ f, member => of_mem_substitute f member
  | .binary _ f g, member => by
      rw [substitute, variableOccurrences] at member
      rw [variableOccurrences, List.mem_append]
      rcases List.mem_append.mp member with left | right
      · exact (of_mem_substitute f left).imp_right fun kept => ⟨.inl kept.1, kept.2⟩
      · exact (of_mem_substitute g right).imp_right fun kept => ⟨.inr kept.1, kept.2⟩
  | .ite f g h, member => by
      rw [substitute, variableOccurrences, List.mem_append, List.mem_append] at member
      rw [variableOccurrences, List.mem_append, List.mem_append]
      rcases member with condition | left | right
      · exact (of_mem_substitute f condition).imp_right fun kept => ⟨.inl kept.1, kept.2⟩
      · exact (of_mem_substitute g left).imp_right fun kept => ⟨.inr (.inl kept.1), kept.2⟩
      · exact (of_mem_substitute h right).imp_right fun kept => ⟨.inr (.inr kept.1), kept.2⟩

theorem Formula.of_mem_substituteEntries :
    ∀ entries : List (String × Formula),
      name ∈ variableOccurrencesEntries (substituteEntries substitution entries) →
      (∃ entry ∈ substitution, name ∈ entry.2.variableOccurrences) ∨
        (name ∈ variableOccurrencesEntries entries ∧ Entries.find? name substitution = none)
  | [], member => nomatch member
  | (_, f) :: rest, member => by
      rw [substituteEntries, variableOccurrencesEntries] at member
      rw [variableOccurrencesEntries, List.mem_append]
      rcases List.mem_append.mp member with first | later
      · exact (of_mem_substitute f first).imp_right fun kept => ⟨.inl kept.1, kept.2⟩
      · exact (of_mem_substituteEntries rest later).imp_right fun kept => ⟨.inr kept.1, kept.2⟩

end

namespace RefinedType

theorem of_mem_freeVars_substitute {t : RefinedType}
    (member : name ∈ (t.substitute substitution).freeVars) :
    (∃ entry ∈ substitution, name ∈ entry.2.variableOccurrences) ∨
      (name ∈ t.freeVars ∧ Entries.find? name substitution = none) := by
  induction t using Skeleton.induction generalizing substitution with
  | scalar base arguments refinement induction =>
      rw [substitute_scalar, mem_freeVars_scalar] at member
      rw [mem_freeVars_scalar]
      rcases member with occurs | ⟨replaced, isReplaced, inside⟩
      · exact (Formula.of_mem_substitute _ occurs).imp_right fun kept => ⟨.inl kept.1, kept.2⟩
      · rcases List.mem_map.mp isReplaced with ⟨t, isArgument, rfl⟩
        exact (induction t isArgument inside).imp_right
          fun kept => ⟨.inr ⟨t, isArgument, kept.1⟩, kept.2⟩
  | function parameter argument result first second =>
      rw [substitute, mem_freeVars_function] at member
      rw [mem_freeVars_function]
      rcases member with inArgument | ⟨inResult, different⟩
      · exact (first inArgument).imp_right fun kept => ⟨.inl kept.1, kept.2⟩
      · rcases second inResult with ⟨entry, left, occurs⟩ | ⟨free, notReplaced⟩
        · exact .inl ⟨entry, (List.mem_filter.mp left).1, occurs⟩
        · rw [Entries.find?_erase_of_ne different] at notReplaced
          exact .inr ⟨.inr ⟨free, different⟩, notReplaced⟩

theorem of_mem_freeVars_renameVar {t : RefinedType} {old new : String} {oldType : RefinedType}
    (member : name ∈ (t.renameVar old new oldType).freeVars) :
    name = new ∨ (name ∈ t.freeVars ∧ (name = old → oldType.isFunction = true)) := by
  cases oldType with
  | function => exact .inr ⟨member, fun _ => rfl⟩
  | scalar base arguments refinement =>
      rcases of_mem_freeVars_substitute member with ⟨entry, isEntry, occurs⟩ | ⟨free, kept⟩
      · cases List.mem_singleton.mp isEntry
        exact .inl (List.mem_singleton.mp occurs)
      · refine .inr ⟨free, fun isOld => ?_⟩
        rw [Formula.find?_singleton, if_pos isOld] at kept
        cases kept

end RefinedType

end Substitute

end Inhabit
