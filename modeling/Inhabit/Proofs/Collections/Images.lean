import Inhabit.Proofs.Collections.Extensionality

/-! Images of sets and of maps.

An image lists the images in their own order. It is the list of the images only if these
come in the order of what they are images of. -/

namespace Inhabit

def KeepsOrder {α β : Type} [Ord α] [Ord β] (image : α → β) (elements : List α) : Prop :=
  ∀ first ∈ elements, ∀ second ∈ elements,
    compare first second = .lt → compare (image first) (image second) = .lt

instance {α β : Type} [Ord α] [Ord β] (image : α → β) (elements : List α) :
    Decidable (KeepsOrder image elements) :=
  inferInstanceAs (Decidable (∀ first ∈ elements, ∀ second ∈ elements,
    compare first second = .lt → compare (image first) (image second) = .lt))

theorem KeepsOrder.mono {α β : Type} [Ord α] [Ord β] {image : α → β}
    {elements others : List α} (keeps : KeepsOrder image others)
    (fewer : ∀ element ∈ elements, element ∈ others) : KeepsOrder image elements :=
  fun first member second other => keeps first (fewer first member) second (fewer second other)

theorem keepsOrder_singleton {α β : Type} [Ord α] [Std.ReflOrd α] [Ord β] (image : α → β)
    (element : α) : KeepsOrder image [element] := by
  intro first member second other less
  rw [List.mem_singleton.mp member, List.mem_singleton.mp other,
    Std.ReflOrd.compare_self] at less
  cases less

namespace SortedSet

variable {α β : Type} [Ord α] [Ord β] [Std.TransOrd α] [Std.LawfulEqOrd α]
  {image : β → α} {set : SortedSet β}

theorem toList_ofList {elements : List α}
    (increasing : elements.Pairwise fun first second => compare first second = .lt) :
    (ofList elements).toList = elements := by
  have same : ofList elements = ⟨elements, increasing⟩ := eq_of_mem_iff fun _ => mem_ofList
  exact congrArg toList same

@[simp] theorem mem_map {element : α} :
    element ∈ set.map image ↔ ∃ origin ∈ set, image origin = element := by
  rw [map, mem_ofList, List.mem_map]
  rfl

theorem toList_map (keeps : KeepsOrder image set.toList) :
    (set.map image).toList = set.toList.map image := by
  apply toList_ofList
  rw [List.pairwise_map]
  exact set.increasing.imp_of_mem fun first second => keeps _ first _ second

theorem size_map (keeps : KeepsOrder image set.toList) : (set.map image).size = set.size := by
  rw [size, toList_map keeps, List.length_map]
  rfl

theorem map_singleton (element : β) :
    (singleton element).map image = singleton (image element) := rfl

variable [Std.TransOrd β] [Std.LawfulEqOrd β]

theorem map_insertMany (elements : List β) :
    (set.insertMany elements).map image =
      (set.map image).insertMany (elements.map image) := by
  apply eq_of_mem_iff
  intro element
  simp only [mem_map, mem_insertMany, List.mem_map]
  constructor
  · rintro ⟨origin, old | new, rfl⟩
    · exact .inl ⟨origin, old, rfl⟩
    · exact .inr ⟨origin, new, rfl⟩
  · rintro (⟨origin, old, rfl⟩ | ⟨origin, new, rfl⟩)
    · exact ⟨origin, .inl old, rfl⟩
    · exact ⟨origin, .inr new, rfl⟩

theorem map_ofList (elements : List β) :
    (ofList elements).map image = ofList (elements.map image) :=
  map_insertMany elements

end SortedSet

namespace SortedMap

variable {κ α β : Type} [Ord κ] [Std.TransOrd κ] [Std.LawfulEqOrd κ]

def image (rename : κ → κ) (transform : α → β) (map : SortedMap κ α) : SortedMap κ β :=
  ofList (map.entries.map fun entry => (rename entry.1, transform entry.2))

variable {rename : κ → κ} {transform : α → β} {map : SortedMap κ α}

theorem find?_image (injective : Function.Injective rename) (key : κ) :
    (map.image rename transform).find? (rename key) = (map.find? key).map transform := by
  suffices folds : ∀ entries : List (κ × α), KeysIncrease entries →
      ∀ done : SortedMap κ β,
        SortedMap.find? ((entries.map fun entry =>
            (rename entry.1, transform entry.2)).foldl
          (fun done entry => done.insert entry.1 entry.2) done) (rename key) =
          ((Entries.find? key entries).map transform).or (done.find? (rename key)) from
    (folds map.entries map.increasing ∅).trans Option.or_none
  intro entries
  induction entries with
  | nil => exact fun _ _ => rfl
  | cons entry rest induction =>
      intro increasing done
      rcases List.pairwise_cons.mp increasing with ⟨above, later⟩
      rw [List.map_cons, List.foldl_cons, induction later, Entries.find?]
      by_cases same : key = entry.1
      · subst same
        rw [Entries.find?_eq_none_of_lt above, if_pos Std.ReflOrd.compare_self,
          find?_insert_self]
        rfl
      · have different : compare key entry.1 ≠ .eq := fun equal =>
          same (Std.LawfulEqOrd.eq_of_compare equal)
        rw [if_neg different, find?_insert_of_ne _ fun equal => same (injective equal)]

theorem find?_image_of_ne {key : κ} (fresh : ∀ old, key ≠ rename old) :
    (map.image rename transform).find? key = none := by
  cases found : (map.image rename transform).find? key with
  | none => rfl
  | some value =>
      rcases List.mem_map.mp (mem_of_mem_entries_ofList (mem_entries_of_find? found)) with
        ⟨entry, _, equal⟩
      exact absurd (congrArg Prod.fst equal).symm (fresh entry.1)

theorem eq_image (injective : Function.Injective rename) {other : SortedMap κ β}
    (same : ∀ key, other.find? (rename key) = (map.find? key).map transform)
    (fresh : ∀ key, (∀ old, key ≠ rename old) → other.find? key = none) :
    other = map.image rename transform := by
  apply eq_of_find?
  intro key
  by_cases known : ∃ old, key = rename old
  · rcases known with ⟨old, rfl⟩
    rw [same, find?_image injective]
  · have unknown : ∀ old, key ≠ rename old := fun old equal => known ⟨old, equal⟩
    rw [fresh key unknown, find?_image_of_ne unknown]

theorem image_insert (injective : Function.Injective rename) (key : κ) (value : α) :
    (map.insert key value).image rename transform =
      (map.image rename transform).insert (rename key) (transform value) := by
  symm
  apply eq_image injective
  · intro other
    by_cases same : other = key
    · rw [same, find?_insert_self, find?_insert_self]
      rfl
    · rw [find?_insert_of_ne _ same, find?_insert_of_ne _ (injective.ne same),
        find?_image injective]
  · intro other fresh
    rw [find?_insert_of_ne _ (fresh key), find?_image_of_ne fresh]

theorem entries_image (injective : Function.Injective rename) :
    (map.image rename transform).entries.Perm
      (map.entries.map fun entry => (rename entry.1, transform entry.2)) := by
  have distinct : (map.entries.map fun entry => (rename entry.1, transform entry.2)).Nodup := by
    rw [List.Nodup, List.pairwise_map]
    apply map.increasing.imp
    intro first second less equal
    rw [injective (congrArg Prod.fst equal), Std.ReflOrd.compare_self] at less
    cases less
  apply (List.perm_ext_iff_of_nodup (nodup_entries _) distinct).mpr
  intro entry
  constructor
  · exact mem_of_mem_entries_ofList
  · intro member
    rcases List.mem_map.mp member with ⟨⟨key, value⟩, listed, rfl⟩
    apply mem_entries_of_find?
    rw [find?_image injective, find?_of_mem_entries listed]
    rfl

end SortedMap

end Inhabit
