/-! Key-ordered lists of entries: the representation shared by every finite
map of the library.

Insertion is a single pass that replaces the entry of an equal key, so looking
up what was inserted needs no assumption that the list is ordered. Only the
facts about order itself ask for it. -/

namespace Inhabit

/-- Entries in strictly increasing order of their keys, hence one for each key. -/
@[reducible] def KeysIncrease [Ord κ] (entries : List (κ × α)) : Prop :=
  entries.Pairwise fun first second => compare first.1 second.1 = .lt

namespace Entries

def find? [Ord κ] (key : κ) : List (κ × α) → Option α
  | [] => none
  | (other, value) :: rest =>
      if compare key other = .eq then some value else find? key rest

def insert [Ord κ] (key : κ) (value : α) : List (κ × α) → List (κ × α)
  | [] => [(key, value)]
  | (other, old) :: rest =>
      match compare key other with
      | .lt => (key, value) :: (other, old) :: rest
      | .eq => (key, value) :: rest
      | .gt => (other, old) :: insert key value rest

def erase [Ord κ] (key : κ) (entries : List (κ × α)) : List (κ × α) :=
  entries.filter fun entry => compare key entry.1 != .eq

def mapValues (transform : α → β) (entries : List (κ × α)) : List (κ × β) :=
  entries.map fun entry => (entry.1, transform entry.2)

def filterMapValues (transform : α → Option β) (entries : List (κ × α)) :
    List (κ × β) :=
  entries.filterMap fun entry => (transform entry.2).map (entry.1, ·)

/-- Insert the entries of a list one after the other; a later one wins. -/
def ofList [Ord κ] (entries : List (κ × α)) : List (κ × α) :=
  entries.foldl (fun done entry => insert entry.1 entry.2 done) []

/-! ## Lookup -/

section Lookup

variable [Ord κ] [Std.LawfulEqOrd κ]

theorem find?_insert_self (key : κ) (value : α) (entries : List (κ × α)) :
    find? key (insert key value entries) = some value := by
  induction entries with
  | nil => simp [insert, find?]
  | cons head rest induction =>
      obtain ⟨other, old⟩ := head
      cases order : compare key other <;> simp [insert, find?, order, induction]

theorem find?_insert_of_ne {key other : κ} (different : other ≠ key)
    (value : α) (entries : List (κ × α)) :
    find? other (insert key value entries) = find? other entries := by
  have otherNe : compare other key ≠ .eq := fun equal =>
    different (Std.LawfulEqOrd.eq_of_compare equal)
  induction entries with
  | nil => simp [insert, find?, otherNe]
  | cons head rest induction =>
      obtain ⟨third, old⟩ := head
      cases order : compare key third with
      | lt => simp [insert, find?, order, otherNe]
      | eq =>
          have : key = third := Std.LawfulEqOrd.eq_of_compare order
          subst this
          simp [insert, find?, otherNe]
      | gt => simp [insert, find?, order, induction]

theorem mem_of_find? {key : κ} {value : α} {entries : List (κ × α)}
    (found : find? key entries = some value) : (key, value) ∈ entries := by
  induction entries with
  | nil => cases found
  | cons head rest induction =>
      obtain ⟨other, old⟩ := head
      by_cases equal : compare key other = .eq
      · have same : key = other := Std.LawfulEqOrd.eq_of_compare equal
        rw [find?, if_pos equal, Option.some_inj] at found
        rw [same, found]
        exact List.mem_cons_self
      · rw [find?, if_neg equal] at found
        exact List.mem_cons_of_mem _ (induction found)

omit [Std.LawfulEqOrd κ] in
theorem find?_erase_self (key : κ) (entries : List (κ × α)) :
    find? key (erase key entries) = none := by
  induction entries with
  | nil => rfl
  | cons head rest induction =>
      obtain ⟨other, old⟩ := head
      simp only [erase] at induction ⊢
      by_cases equal : compare key other = .eq <;>
        simp [equal, find?, induction]

theorem find?_erase_of_ne {key other : κ} (different : other ≠ key)
    (entries : List (κ × α)) :
    find? other (erase key entries) = find? other entries := by
  induction entries with
  | nil => rfl
  | cons head rest induction =>
      obtain ⟨third, old⟩ := head
      simp only [erase] at induction ⊢
      by_cases equal : compare key third = .eq
      · have : key = third := Std.LawfulEqOrd.eq_of_compare equal
        subst this
        have otherNe : compare other key ≠ .eq := fun same =>
          different (Std.LawfulEqOrd.eq_of_compare same)
        simp [find?, otherNe, induction]
      · simp [equal, find?, induction]

end Lookup

theorem find?_mapValues [Ord κ] (transform : α → β) (key : κ)
    (entries : List (κ × α)) :
    find? key (mapValues transform entries) = (find? key entries).map transform := by
  induction entries with
  | nil => rfl
  | cons head rest induction =>
      obtain ⟨other, old⟩ := head
      simp only [mapValues] at induction ⊢
      by_cases equal : compare key other = .eq <;>
        simp [find?, equal, induction]

theorem mapValues_insert [Ord κ] (transform : α → β) (key : κ) (value : α)
    (entries : List (κ × α)) :
    mapValues transform (insert key value entries) =
      insert key (transform value) (mapValues transform entries) := by
  induction entries with
  | nil => rfl
  | cons head rest induction =>
      obtain ⟨other, old⟩ := head
      simp only [mapValues] at induction ⊢
      cases order : compare key other <;> simp [insert, order, induction]

/-! ## Order -/

section Order

variable [Ord κ]

theorem mem_insert {entry : κ × α} {key : κ} {value : α}
    {entries : List (κ × α)} (member : entry ∈ insert key value entries) :
    entry = (key, value) ∨ entry ∈ entries := by
  induction entries with
  | nil => simpa [insert] using member
  | cons head rest induction =>
      obtain ⟨other, old⟩ := head
      cases order : compare key other <;> simp [insert, order] at member <;> grind

theorem keysIncrease_insert [Std.TransOrd κ] [Std.LawfulEqOrd κ] (key : κ)
    (value : α) {entries : List (κ × α)} (increasing : KeysIncrease entries) :
    KeysIncrease (insert key value entries) := by
  induction entries with
  | nil => simp [insert]
  | cons head rest induction =>
      obtain ⟨other, old⟩ := head
      have above := (List.pairwise_cons.mp increasing).1
      have restIncreasing := (List.pairwise_cons.mp increasing).2
      cases order : compare key other with
      | lt =>
          simp only [insert, order]
          refine List.pairwise_cons.mpr ⟨?_, increasing⟩
          intro entry member
          rcases List.mem_cons.mp member with equal | member
          · subst equal; exact order
          · exact Std.TransCmp.lt_trans order (above entry member)
      | eq =>
          have : key = other := Std.LawfulEqOrd.eq_of_compare order
          subst this
          simp only [insert, order]
          exact List.pairwise_cons.mpr ⟨above, restIncreasing⟩
      | gt =>
          simp only [insert, order]
          refine List.pairwise_cons.mpr ⟨?_, induction restIncreasing⟩
          intro entry member
          rcases mem_insert member with equal | member
          · subst equal; exact Std.OrientedCmp.lt_of_gt order
          · exact above entry member

theorem find?_of_mem [Std.OrientedOrd κ] {key : κ} {value : α} {entries : List (κ × α)}
    (increasing : KeysIncrease entries) (member : (key, value) ∈ entries) :
    find? key entries = some value := by
  induction entries with
  | nil => cases member
  | cons head rest induction =>
      obtain ⟨other, old⟩ := head
      have parts := List.pairwise_cons.mp increasing
      rcases List.mem_cons.mp member with equal | inRest
      · cases equal
        rw [find?, if_pos Std.ReflOrd.compare_self]
      · have above : compare other key = .lt := parts.1 _ inRest
        have different : compare key other ≠ .eq := fun equal => by
          rw [Std.OrientedCmp.eq_comm, above] at equal
          cases equal
        rw [find?, if_neg different]
        exact induction parts.2 inRest

theorem find?_eq_none_of_lt {key : κ} {entries : List (κ × α)}
    (below : ∀ entry ∈ entries, compare key entry.1 = .lt) : find? key entries = none := by
  induction entries with
  | nil => rfl
  | cons head rest induction =>
      obtain ⟨other, old⟩ := head
      have parts := List.forall_mem_cons.mp below
      have different : compare key other ≠ .eq := by
        rw [parts.1]
        exact nofun
      rw [find?, if_neg different]
      exact induction parts.2

theorem findSome?_insert [Std.TransOrd κ] [Std.LawfulEqOrd κ] {choose : α → Option β}
    {key : κ} {value : α} {entries : List (κ × α)} (increasing : KeysIncrease entries)
    (same : choose value = (find? key entries).bind choose) :
    ((insert key value entries).map Prod.snd).findSome? choose =
      (entries.map Prod.snd).findSome? choose := by
  induction entries with
  | nil =>
      have none : choose value = .none := same
      rw [insert, List.map_singleton, List.findSome?_cons, none]
      rfl
  | cons head rest induction =>
      obtain ⟨other, old⟩ := head
      have parts := List.pairwise_cons.mp increasing
      cases order : compare key other with
      | lt =>
          have below : ∀ entry ∈ (other, old) :: rest, compare key entry.1 = .lt :=
            List.forall_mem_cons.mpr
              ⟨order, fun entry member => Std.TransCmp.lt_trans order (parts.1 entry member)⟩
          rw [find?_eq_none_of_lt below] at same
          have none : choose value = .none := same
          simp only [insert, order, List.map_cons, List.findSome?_cons, none]
      | eq =>
          rw [find?, if_pos order] at same
          have equal : choose value = choose old := same
          simp only [insert, order, List.map_cons, List.findSome?_cons, equal]
      | gt =>
          have different : compare key other ≠ .eq := by
            rw [order]
            exact nofun
          rw [find?, if_neg different] at same
          simp only [insert, order, List.map_cons, List.findSome?_cons,
            induction parts.2 same]

theorem keysIncrease_erase (key : κ) {entries : List (κ × α)}
    (increasing : KeysIncrease entries) : KeysIncrease (erase key entries) :=
  List.Pairwise.filter _ increasing

theorem keysIncrease_mapValues (transform : α → β) {entries : List (κ × α)}
    (increasing : KeysIncrease entries) :
    KeysIncrease (mapValues transform entries) :=
  List.Pairwise.map _ (fun _ _ order => order) increasing

theorem keysIncrease_filterMapValues (transform : α → Option β)
    {entries : List (κ × α)} (increasing : KeysIncrease entries) :
    KeysIncrease (filterMapValues transform entries) := by
  refine List.Pairwise.filterMap _ ?_ increasing
  intro first second order image imageOf other otherOf
  simp only [Option.map_eq_some_iff] at imageOf otherOf
  obtain ⟨_, _, rfl⟩ := imageOf
  obtain ⟨_, _, rfl⟩ := otherOf
  exact order

end Order

end Entries

end Inhabit
