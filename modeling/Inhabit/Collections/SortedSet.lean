import Inhabit.Collections.Entries

/-! Finite sets kept in increasing order, without repetitions. -/

namespace Inhabit

structure SortedSet (α : Type) [Ord α] where
  toList : List α
  increasing : toList.Pairwise fun first second => compare first second = .lt

namespace SortedSet

section Basic

variable {α : Type} [Ord α]

@[ext] theorem ext {left right : SortedSet α}
    (equal : left.toList = right.toList) : left = right := by
  cases left; cases right; cases equal; rfl

instance [DecidableEq α] : DecidableEq (SortedSet α) := fun left right =>
  decidable_of_iff (left.toList = right.toList) ⟨ext, congrArg toList⟩

def empty : SortedSet α := ⟨[], .nil⟩

instance : EmptyCollection (SortedSet α) := ⟨empty⟩

instance : Inhabited (SortedSet α) := ⟨empty⟩

instance : Membership α (SortedSet α) := ⟨fun set element => element ∈ set.toList⟩

theorem mem_toList {set : SortedSet α} {element : α} :
    element ∈ set.toList ↔ element ∈ set := .rfl

instance [DecidableEq α] (element : α) (set : SortedSet α) :
    Decidable (element ∈ set) :=
  inferInstanceAs (Decidable (element ∈ set.toList))

def contains (set : SortedSet α) (element : α) : Bool :=
  set.toList.any fun other => compare element other == .eq

def size (set : SortedSet α) : Nat := set.toList.length

def isEmpty (set : SortedSet α) : Bool := set.toList.isEmpty

def filter (keep : α → Bool) (set : SortedSet α) : SortedSet α :=
  ⟨set.toList.filter keep, set.increasing.filter _⟩

def erase (set : SortedSet α) (element : α) : SortedSet α :=
  set.filter fun other => compare element other != .eq

@[simp] theorem mem_filter {keep : α → Bool} {set : SortedSet α} {element : α} :
    element ∈ set.filter keep ↔ element ∈ set ∧ keep element := by
  simp [← mem_toList, filter]

@[simp] theorem not_mem_empty (element : α) : element ∉ (∅ : SortedSet α) :=
  nofun

end Basic

theorem nodup_toList {α : Type} [Ord α] [Std.ReflOrd α] (set : SortedSet α) :
    set.toList.Nodup := by
  apply set.increasing.imp
  rintro first _ less rfl
  rw [Std.ReflOrd.compare_self] at less
  cases less

/-! ## Insertion -/

def insertOrdered [Ord α] (element : α) : List α → List α
  | [] => [element]
  | other :: rest =>
      match compare element other with
      | .lt => element :: other :: rest
      | .eq => other :: rest
      | .gt => other :: insertOrdered element rest

section Insertion

variable {α : Type} [Ord α]

theorem mem_insertOrdered [Std.LawfulEqOrd α] {element other : α}
    {elements : List α} :
    other ∈ insertOrdered element elements ↔ other = element ∨ other ∈ elements := by
  induction elements with
  | nil => simp [insertOrdered]
  | cons head rest induction =>
      cases order : compare element head with
      | lt => simp [insertOrdered, order]
      | eq =>
          have : element = head := Std.LawfulEqOrd.eq_of_compare order
          subst this
          simp [insertOrdered]
      | gt =>
          simp only [insertOrdered, order, List.mem_cons, induction]
          grind

theorem pairwise_insertOrdered [Std.TransOrd α] [Std.LawfulEqOrd α] (element : α)
    {elements : List α}
    (increasing : elements.Pairwise fun first second => compare first second = .lt) :
    (insertOrdered element elements).Pairwise
      fun first second => compare first second = .lt := by
  induction elements with
  | nil => simp [insertOrdered]
  | cons head rest induction =>
      have above := (List.pairwise_cons.mp increasing).1
      have restIncreasing := (List.pairwise_cons.mp increasing).2
      cases order : compare element head with
      | lt =>
          simp only [insertOrdered, order]
          refine List.pairwise_cons.mpr ⟨?_, increasing⟩
          intro other member
          rcases List.mem_cons.mp member with equal | member
          · subst equal; exact order
          · exact Std.TransCmp.lt_trans order (above other member)
      | eq => simpa only [insertOrdered, order] using increasing
      | gt =>
          simp only [insertOrdered, order]
          refine List.pairwise_cons.mpr ⟨?_, induction restIncreasing⟩
          intro other member
          rcases mem_insertOrdered.mp member with equal | member
          · subst equal; exact Std.OrientedCmp.lt_of_gt order
          · exact above other member

variable [Std.TransOrd α] [Std.LawfulEqOrd α]

def insert (set : SortedSet α) (element : α) : SortedSet α :=
  ⟨insertOrdered element set.toList, pairwise_insertOrdered element set.increasing⟩

def insertMany (set : SortedSet α) (elements : List α) : SortedSet α :=
  elements.foldl insert set

def ofList (elements : List α) : SortedSet α := insertMany ∅ elements

def singleton (element : α) : SortedSet α := ⟨[element], by simp⟩

/-- The images of the elements; those with equal images become one. -/
def map {β : Type} [Ord β] (transform : β → α) (set : SortedSet β) : SortedSet α :=
  ofList (set.toList.map transform)

def union (left right : SortedSet α) : SortedSet α :=
  left.insertMany right.toList

instance : Union (SortedSet α) := ⟨union⟩

omit [Std.TransOrd α] in
theorem contains_iff_mem {set : SortedSet α} {element : α} :
    set.contains element = true ↔ element ∈ set := by
  simp [contains, ← mem_toList, List.any_eq_true]

@[simp] theorem mem_insert {set : SortedSet α} {element other : α} :
    other ∈ set.insert element ↔ other = element ∨ other ∈ set := by
  simp [← mem_toList, insert, mem_insertOrdered]

@[simp] theorem mem_insertMany {elements : List α} {set : SortedSet α} {other : α} :
    other ∈ set.insertMany elements ↔ other ∈ set ∨ other ∈ elements := by
  induction elements generalizing set with
  | nil => simp [insertMany]
  | cons head rest induction =>
      simp only [insertMany, List.foldl_cons] at induction ⊢
      rw [induction, mem_insert, List.mem_cons]
      grind

@[simp] theorem mem_ofList {elements : List α} {other : α} :
    other ∈ ofList elements ↔ other ∈ elements := by
  simp [ofList]

@[simp] theorem mem_union {left right : SortedSet α} {other : α} :
    other ∈ left ∪ right ↔ other ∈ left ∨ other ∈ right := by
  change other ∈ left.insertMany right.toList ↔ _
  rw [mem_insertMany, mem_toList]

end Insertion

example : (SortedSet.ofList ["b", "a", "b"]).toList = ["a", "b"] := by decide

end SortedSet

end Inhabit
