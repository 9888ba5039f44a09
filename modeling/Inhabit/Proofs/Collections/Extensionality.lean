import Inhabit.Collections.SortedMap
import Inhabit.Collections.SortedSet

/-! Sets with the same members are equal, and so are maps that find the same. -/

namespace Inhabit

theorem SortedSet.eq_of_mem_iff {α : Type} [Ord α] [Std.TransOrd α] [Std.LawfulEqOrd α]
    {left right : SortedSet α} (same : ∀ element, element ∈ left ↔ element ∈ right) :
    left = right := by
  have permuted : left.toList.Perm right.toList :=
    (List.perm_ext_iff_of_nodup left.nodup_toList right.nodup_toList).mpr same
  apply SortedSet.ext
  apply permuted.eq_of_pairwise _ left.increasing right.increasing
  intro first second _ _ less greater
  rw [Std.OrientedOrd.eq_swap, greater] at less
  cases less

namespace SortedMap

variable {κ α : Type} [Ord κ] [Std.TransOrd κ] [Std.LawfulEqOrd κ]

omit [Std.TransOrd κ] in
theorem nodup_keys (map : SortedMap κ α) : map.keys.Nodup := by
  apply List.pairwise_map.mpr
  apply map.increasing.imp
  intro first second less same
  rw [same, Std.ReflOrd.compare_self] at less
  cases less

omit [Std.TransOrd κ] in
theorem nodup_entries (map : SortedMap κ α) : map.entries.Nodup :=
  List.Pairwise.of_map Prod.fst (fun _ _ different same => different (congrArg _ same))
    map.nodup_keys

theorem eq_of_find? {left right : SortedMap κ α}
    (same : ∀ key, left.find? key = right.find? key) : left = right := by
  have members (entry : κ × α) : entry ∈ left.entries ↔ entry ∈ right.entries := by
    constructor
    · intro member
      apply mem_entries_of_find?
      rw [← same, find?_of_mem_entries member]
    · intro member
      apply mem_entries_of_find?
      rw [same, find?_of_mem_entries member]
  have permuted : left.entries.Perm right.entries :=
    (List.perm_ext_iff_of_nodup left.nodup_entries right.nodup_entries).mpr members
  apply SortedMap.ext
  apply permuted.eq_of_pairwise _ left.increasing right.increasing
  intro first second _ _ less greater
  rw [Std.OrientedOrd.eq_swap, greater] at less
  cases less

end SortedMap

end Inhabit
