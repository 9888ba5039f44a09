import Inhabit.Collections.SortedMap
import Mathlib

/-! Ranks along the references of a finite map.

Where what a key refers to never leads back to the key, references can be followed by
counting down, and the map has entries enough to count. -/

namespace Inhabit

theorem not_transGen_self_of_rank {κ : Type} {refers : κ → κ → Prop} (rank : κ → Nat)
    (falls : ∀ key other, refers key other → rank other < rank key) (key : κ) :
    ¬ Relation.TransGen refers key key := by
  intro cycle
  have below : ∀ other, Relation.TransGen refers key other → rank other < rank key := by
    intro other path
    induction path with
    | single step => exact falls _ _ step
    | tail _ step induction => exact (falls _ _ step).trans induction
  exact Nat.lt_irrefl _ (below key cycle)

namespace SortedMap

variable {κ α : Type} [Ord κ] [Std.LawfulEqOrd κ]

theorem exists_rank (map : SortedMap κ α) {refers : κ → κ → Prop}
    (inMap : ∀ key other, refers key other → ∃ value, map.find? key = some value)
    (acyclic : ∀ key, ¬ Relation.TransGen refers key key) :
    ∃ rank : κ → Nat,
      (∀ key other, refers key other → rank other < rank key) ∧
      (∀ key, rank key ≤ map.size) ∧
      ∀ key value, map.find? key = some value → 0 < rank key := by
  classical
  let reach (key : κ) : Finset κ :=
    map.keys.toFinset.filter (Relation.ReflTransGen refers key)
  have isKey : ∀ key value, map.find? key = some value →
      key ∈ map.keys.toFinset := fun key value found =>
    List.mem_toFinset.mpr
      (List.mem_map.mpr ⟨(key, value), mem_entries_of_find? found, rfl⟩)
  refine ⟨fun key => (reach key).card, ?_, ?_, ?_⟩
  · intro key other reference
    obtain ⟨value, found⟩ := inMap key other reference
    refine Finset.card_lt_card ⟨?_, ?_⟩
    · intro third member
      rw [Finset.mem_filter] at member ⊢
      exact ⟨member.1, .head reference member.2⟩
    · intro within
      have self : key ∈ reach key :=
        Finset.mem_filter.mpr ⟨isKey key value found, .refl⟩
      have back := (Finset.mem_filter.mp (within self)).2
      exact acyclic key (.head' reference back)
  · intro key
    calc (reach key).card
        ≤ map.keys.toFinset.card := Finset.card_filter_le _ _
      _ ≤ map.keys.length := List.toFinset_card_le _
      _ = map.size := List.length_map _
  · intro key value found
    exact Finset.card_pos.mpr
      ⟨key, Finset.mem_filter.mpr ⟨isKey key value found, .refl⟩⟩

end SortedMap

end Inhabit
