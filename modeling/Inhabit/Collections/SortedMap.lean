import Inhabit.Collections.Entries

/-! Finite maps kept in the order of their keys. Two maps with the same entries
are equal, and listing a map needs no sorting. -/

namespace Inhabit

structure SortedMap (κ : Type) [Ord κ] (α : Type) where
  entries : List (κ × α)
  increasing : KeysIncrease entries

namespace SortedMap

section Basic

variable {κ : Type} [Ord κ] {α β : Type}

@[ext] theorem ext {left right : SortedMap κ α}
    (equal : left.entries = right.entries) : left = right := by
  cases left; cases right; cases equal; rfl

instance [DecidableEq κ] [DecidableEq α] : DecidableEq (SortedMap κ α) :=
  fun left right =>
    decidable_of_iff (left.entries = right.entries) ⟨ext, congrArg entries⟩

def empty : SortedMap κ α := ⟨[], .nil⟩

instance : EmptyCollection (SortedMap κ α) := ⟨empty⟩

instance : Inhabited (SortedMap κ α) := ⟨empty⟩

def find? (map : SortedMap κ α) (key : κ) : Option α :=
  Entries.find? key map.entries

def contains (map : SortedMap κ α) (key : κ) : Bool := (map.find? key).isSome

def size (map : SortedMap κ α) : Nat := map.entries.length

def isEmpty (map : SortedMap κ α) : Bool := map.entries.isEmpty

def keys (map : SortedMap κ α) : List κ := map.entries.map Prod.fst

def values (map : SortedMap κ α) : List α := map.entries.map Prod.snd

def erase (map : SortedMap κ α) (key : κ) : SortedMap κ α :=
  ⟨Entries.erase key map.entries, Entries.keysIncrease_erase key map.increasing⟩

def mapValues (transform : α → β) (map : SortedMap κ α) : SortedMap κ β :=
  ⟨Entries.mapValues transform map.entries,
    Entries.keysIncrease_mapValues transform map.increasing⟩

def filterMapValues (transform : α → Option β) (map : SortedMap κ α) :
    SortedMap κ β :=
  ⟨Entries.filterMapValues transform map.entries,
    Entries.keysIncrease_filterMapValues transform map.increasing⟩

end Basic

section Insertion

variable {κ : Type} [Ord κ] [Std.TransOrd κ] [Std.LawfulEqOrd κ] {α : Type}

def insert (map : SortedMap κ α) (key : κ) (value : α) : SortedMap κ α :=
  ⟨Entries.insert key value map.entries,
    Entries.keysIncrease_insert key value map.increasing⟩

def insertIfNew (map : SortedMap κ α) (key : κ) (value : α) : SortedMap κ α :=
  if map.contains key then map else map.insert key value

def ofList (entries : List (κ × α)) : SortedMap κ α :=
  entries.foldl (fun map entry => map.insert entry.1 entry.2) ∅

def singleton (key : κ) (value : α) : SortedMap κ α :=
  (∅ : SortedMap κ α).insert key value

@[simp] theorem find?_insert_self (map : SortedMap κ α) (key : κ) (value : α) :
    (map.insert key value).find? key = some value :=
  Entries.find?_insert_self key value map.entries

theorem find?_insert_of_ne (map : SortedMap κ α) {key other : κ}
    (different : other ≠ key) (value : α) :
    (map.insert key value).find? other = map.find? other :=
  Entries.find?_insert_of_ne different value map.entries

theorem find?_insert [DecidableEq κ] (map : SortedMap κ α) (key : κ) (value : α)
    (other : κ) :
    (map.insert key value).find? other =
      if other = key then some value else map.find? other := by
  by_cases same : other = key
  · rw [if_pos same, same, find?_insert_self]
  · rw [if_neg same, find?_insert_of_ne _ same]

end Insertion

@[simp] theorem find?_erase_self [Ord κ] (map : SortedMap κ α) (key : κ) :
    (map.erase key).find? key = none :=
  Entries.find?_erase_self key map.entries

theorem find?_erase_of_ne [Ord κ] [Std.LawfulEqOrd κ] (map : SortedMap κ α)
    {key other : κ} (different : other ≠ key) :
    (map.erase key).find? other = map.find? other :=
  Entries.find?_erase_of_ne different map.entries

@[simp] theorem find?_mapValues [Ord κ] (transform : α → β)
    (map : SortedMap κ α) (key : κ) :
    (map.mapValues transform).find? key = (map.find? key).map transform :=
  Entries.find?_mapValues transform key map.entries

@[simp] theorem find?_empty [Ord κ] (key : κ) :
    (∅ : SortedMap κ α).find? key = none := rfl

theorem mem_entries_of_find? [Ord κ] [Std.LawfulEqOrd κ] {map : SortedMap κ α}
    {key : κ} {value : α} (found : map.find? key = some value) :
    (key, value) ∈ map.entries :=
  Entries.mem_of_find? found

theorem find?_of_mem_entries [Ord κ] [Std.OrientedOrd κ] {map : SortedMap κ α}
    {key : κ} {value : α} (member : (key, value) ∈ map.entries) :
    map.find? key = some value :=
  Entries.find?_of_mem map.increasing member

theorem find?_filterMapValues [Ord κ] [Std.OrientedOrd κ] [Std.LawfulEqOrd κ]
    (transform : α → Option β) (map : SortedMap κ α) (key : κ) :
    (map.filterMapValues transform).find? key = (map.find? key).bind transform := by
  apply Option.ext
  intro value
  rw [Option.bind_eq_some_iff]
  constructor
  · intro found
    rcases List.mem_filterMap.mp (mem_entries_of_find? found) with ⟨entry, member, kept⟩
    rcases Option.map_eq_some_iff.mp kept with ⟨image, transformed, equal⟩
    cases equal
    exact ⟨entry.2, find?_of_mem_entries member, transformed⟩
  · rintro ⟨old, found, transformed⟩
    apply find?_of_mem_entries
    apply List.mem_filterMap.mpr ⟨_, mem_entries_of_find? found, _⟩
    rw [transformed]
    rfl

theorem findSome?_values_insert [Ord κ] [Std.TransOrd κ] [Std.LawfulEqOrd κ]
    {map : SortedMap κ α} {choose : α → Option β} {key : κ} {value : α}
    (same : choose value = (map.find? key).bind choose) :
    (map.insert key value).values.findSome? choose = map.values.findSome? choose :=
  Entries.findSome?_insert map.increasing same

theorem mem_of_mem_entries_ofList [Ord κ] [Std.TransOrd κ] [Std.LawfulEqOrd κ]
    {entries : List (κ × α)} {entry : κ × α} (member : entry ∈ (ofList entries).entries) :
    entry ∈ entries := by
  suffices all : ∀ map : SortedMap κ α,
      entry ∈ (entries.foldl (fun map entry => map.insert entry.1 entry.2) map).entries →
        entry ∈ map.entries ∨ entry ∈ entries from (all ∅ member).elim nofun id
  clear member
  induction entries with
  | nil => exact fun _ => .inl
  | cons head rest induction =>
      intro map member
      rcases induction _ member with old | inRest
      · rcases Entries.mem_insert old with rfl | old
        · exact .inr List.mem_cons_self
        · exact .inl old
      · exact .inr (List.mem_cons_of_mem _ inRest)

example :
    ((SortedMap.singleton "y" 1).insert "x" 2).entries = [("x", 2), ("y", 1)] := by
  decide

end SortedMap

end Inhabit
