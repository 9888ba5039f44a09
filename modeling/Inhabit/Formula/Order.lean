import Inhabit.Formula.Basic

/-! A total order of formulas. Constructors are compared first, in the order of
their declaration, and then the arguments from left to right; pending renamings
are compared as lists of entries. The order is lawful: it decides equality, and
sets of formulas have one representation. -/

namespace Inhabit

/-! ## Sorts and operators -/

namespace LogicSort

def key : LogicSort → Nat × String
  | .bool => (0, "")
  | .int => (1, "")
  | .var name => (2, name)
  | .data name => (3, name)

theorem key_injective {left right : LogicSort} (equal : left.key = right.key) :
    left = right := by
  cases left <;> cases right <;> simp_all [key]

@[reducible] def cmp : LogicSort → LogicSort → Ordering :=
  compareLex (compareOn fun sort => sort.key.1) (compareOn fun sort => sort.key.2)

instance : Ord LogicSort := ⟨cmp⟩

instance : Std.TransOrd LogicSort := inferInstanceAs (Std.TransCmp cmp)

instance : Std.LawfulEqOrd LogicSort where
  eq_of_compare equal := by
    have ⟨rank, name⟩ := compareLex_eq_eq.mp equal
    exact key_injective (Prod.ext (Std.LawfulEqOrd.eq_of_compare rank)
      (Std.LawfulEqOrd.eq_of_compare name))

end LogicSort

def UnaryOp.rank : UnaryOp → Nat
  | .neg => 0
  | .not => 1

def BinaryOp.rank : BinaryOp → Nat
  | .times => 0
  | .plus => 1
  | .minus => 2
  | .eq => 3
  | .neq => 4
  | .lt => 5
  | .le => 6
  | .gt => 7
  | .ge => 8
  | .and => 9
  | .or => 10
  | .implies => 11
  | .iff => 12

instance : Ord UnaryOp := ⟨compareOn UnaryOp.rank⟩

instance : Ord BinaryOp := ⟨compareOn BinaryOp.rank⟩

instance : Std.TransOrd UnaryOp :=
  inferInstanceAs (Std.TransCmp (compareOn UnaryOp.rank))

instance : Std.TransOrd BinaryOp :=
  inferInstanceAs (Std.TransCmp (compareOn BinaryOp.rank))

instance : Std.LawfulEqOrd UnaryOp where
  eq_of_compare {left right} equal := by
    have : left.rank = right.rank := Std.LawfulEqOrd.eq_of_compare equal
    cases left <;> cases right <;> simp_all [UnaryOp.rank]

instance : Std.LawfulEqOrd BinaryOp where
  eq_of_compare {left right} equal := by
    have : left.rank = right.rank := Std.LawfulEqOrd.eq_of_compare equal
    cases left <;> cases right <;> simp_all [BinaryOp.rank]

namespace Formula

def rank : Formula → Nat
  | .bool _ => 0
  | .int _ => 1
  | .var _ _ => 2
  | .unknown _ _ => 3
  | .unary _ _ => 4
  | .binary _ _ _ => 5
  | .ite _ _ _ => 6
  | .measure _ _ _ => 7

mutual

def cmp : Formula → Formula → Ordering
  | .bool a, .bool b => compare a b
  | .int a, .int b => compare a b
  | .var s x, .var t y => (compare s t).then (compare x y)
  | .unknown p x, .unknown q y => (cmpEntries p q).then (compare x y)
  | .unary o f, .unary q g => (compare o q).then (cmp f g)
  | .binary o f₁ f₂, .binary q g₁ g₂ =>
      (compare o q).then ((cmp f₁ g₁).then (cmp f₂ g₂))
  | .ite f₁ f₂ f₃, .ite g₁ g₂ g₃ =>
      (cmp f₁ g₁).then ((cmp f₂ g₂).then (cmp f₃ g₃))
  | .measure s x f, .measure t y g =>
      (compare s t).then ((compare x y).then (cmp f g))
  | f, g => compare f.rank g.rank
termination_by structural f => f

/-- Lexicographic on the entries; a proper initial part comes first. -/
def cmpEntries : List (String × Formula) → List (String × Formula) → Ordering
  | [], [] => .eq
  | [], _ :: _ => .lt
  | _ :: _, [] => .gt
  | (x, f) :: rest, (y, g) :: others =>
      (compare x y).then ((cmp f g).then (cmpEntries rest others))
termination_by structural entries => entries

end

instance : Ord Formula := ⟨cmp⟩

/-! ## Laws -/

theorem cmp_of_rank_ne {f g : Formula} (different : f.rank ≠ g.rank) :
    cmp f g = compare f.rank g.rank := by
  cases f <;> cases g <;> first | rfl | exact absurd rfl different

mutual

theorem cmp_self (f : Formula) : cmp f f = .eq := by
  match f with
  | .bool a => simp [cmp]
  | .int a => simp [cmp]
  | .var s x => simp [cmp]
  | .unknown p x => simp [cmp, cmpEntries_self p]
  | .unary o f => simp [cmp, cmp_self f]
  | .binary o f g => simp [cmp, cmp_self f, cmp_self g]
  | .ite f g h => simp [cmp, cmp_self f, cmp_self g, cmp_self h]
  | .measure s x f => simp [cmp, cmp_self f]

theorem cmpEntries_self (entries : List (String × Formula)) :
    cmpEntries entries entries = .eq := by
  match entries with
  | [] => rfl
  | (x, f) :: rest => simp [cmpEntries, cmp_self f, cmpEntries_self rest]

end

mutual

theorem eq_of_cmp {f g : Formula} (equal : cmp f g = .eq) : f = g := by
  by_cases same : f.rank = g.rank
  · match f with
    | .bool a => cases g <;> simp_all [rank, cmp]
    | .int a => cases g <;> simp_all [rank, cmp]
    | .var s x =>
        cases g <;> simp [rank] at same
        simp [cmp, Ordering.then_eq_eq] at equal
        simp [equal]
    | .unknown p x =>
        cases g <;> simp [rank] at same
        simp only [cmp, Ordering.then_eq_eq] at equal
        rw [eq_of_cmpEntries equal.1, Std.LawfulEqOrd.eq_of_compare equal.2]
    | .unary o f =>
        cases g <;> simp [rank] at same
        simp only [cmp, Ordering.then_eq_eq] at equal
        rw [Std.LawfulEqOrd.eq_of_compare equal.1, eq_of_cmp equal.2]
    | .binary o f₁ f₂ =>
        cases g <;> simp [rank] at same
        simp only [cmp, Ordering.then_eq_eq] at equal
        rw [Std.LawfulEqOrd.eq_of_compare equal.1, eq_of_cmp equal.2.1,
          eq_of_cmp equal.2.2]
    | .ite f₁ f₂ f₃ =>
        cases g <;> simp [rank] at same
        simp only [cmp, Ordering.then_eq_eq] at equal
        rw [eq_of_cmp equal.1, eq_of_cmp equal.2.1, eq_of_cmp equal.2.2]
    | .measure s x f =>
        cases g <;> simp [rank] at same
        simp only [cmp, Ordering.then_eq_eq] at equal
        rw [Std.LawfulEqOrd.eq_of_compare equal.1,
          Std.LawfulEqOrd.eq_of_compare equal.2.1, eq_of_cmp equal.2.2]
  · rw [cmp_of_rank_ne same] at equal
    exact absurd (Std.LawfulEqOrd.eq_of_compare equal) same

theorem eq_of_cmpEntries {left right : List (String × Formula)}
    (equal : cmpEntries left right = .eq) : left = right := by
  match left, right with
  | [], [] => rfl
  | [], _ :: _ => simp [cmpEntries] at equal
  | _ :: _, [] => simp [cmpEntries] at equal
  | (x, f) :: rest, (y, g) :: others =>
      simp only [cmpEntries, Ordering.then_eq_eq] at equal
      rw [Std.LawfulEqOrd.eq_of_compare equal.1, eq_of_cmp equal.2.1,
        eq_of_cmpEntries equal.2.2]

end

mutual

theorem cmp_swap (f g : Formula) : cmp f g = (cmp g f).swap := by
  by_cases same : f.rank = g.rank
  · match f with
    | .bool a =>
        cases g <;> simp [rank] at same
        exact Std.OrientedOrd.eq_swap
    | .int a =>
        cases g <;> simp [rank] at same
        exact Std.OrientedOrd.eq_swap
    | .var s x =>
        cases g <;> simp [rank] at same
        simp only [cmp, Ordering.swap_then]
        rw [Std.OrientedOrd.eq_swap (a := s), Std.OrientedOrd.eq_swap (a := x)]
    | .unknown p x =>
        cases g <;> simp [rank] at same
        simp only [cmp, Ordering.swap_then]
        rw [cmpEntries_swap p, Std.OrientedOrd.eq_swap (a := x)]
    | .unary o f =>
        cases g <;> simp [rank] at same
        simp only [cmp, Ordering.swap_then]
        rw [Std.OrientedOrd.eq_swap (a := o), cmp_swap f]
    | .binary o f₁ f₂ =>
        cases g <;> simp [rank] at same
        simp only [cmp, Ordering.swap_then]
        rw [Std.OrientedOrd.eq_swap (a := o), cmp_swap f₁, cmp_swap f₂]
    | .ite f₁ f₂ f₃ =>
        cases g <;> simp [rank] at same
        simp only [cmp, Ordering.swap_then]
        rw [cmp_swap f₁, cmp_swap f₂, cmp_swap f₃]
    | .measure s x f =>
        cases g <;> simp [rank] at same
        simp only [cmp, Ordering.swap_then]
        rw [Std.OrientedOrd.eq_swap (a := s), Std.OrientedOrd.eq_swap (a := x),
          cmp_swap f]
  · rw [cmp_of_rank_ne same, cmp_of_rank_ne (Ne.symm same)]
    exact Std.OrientedOrd.eq_swap

theorem cmpEntries_swap (left right : List (String × Formula)) :
    cmpEntries left right = (cmpEntries right left).swap := by
  match left, right with
  | [], [] => rfl
  | [], _ :: _ => rfl
  | _ :: _, [] => rfl
  | (x, f) :: rest, (y, g) :: others =>
      simp only [cmpEntries, Ordering.swap_then]
      rw [Std.OrientedOrd.eq_swap (a := x), cmp_swap f, cmpEntries_swap rest]

end

/-- How the comparisons of a first value with a second, of the second with a
third and of the first with the third fit together. -/
private def Chain (first second both : Ordering) : Prop :=
  (first = .eq → both = second) ∧ (second = .eq → both = first) ∧
    (first = .lt → second = .lt → both = .lt) ∧
    (first = .gt → second = .gt → both = .gt)

private theorem Chain.then {a b c a' b' c' : Ordering} (outer : Chain a b c)
    (inner : Chain a' b' c') : Chain (a.then a') (b.then b') (c.then c') := by
  cases a <;> cases b <;> cases c <;> simp_all [Chain, Ordering.then]

private theorem Chain.of_trans [Ord α] [Std.TransOrd α] [Std.LawfulEqOrd α]
    (a b c : α) : Chain (compare a b) (compare b c) (compare a c) := by
  refine ⟨?_, ?_, Std.TransCmp.lt_trans, Std.TransCmp.gt_trans⟩
  · intro equal; rw [Std.LawfulEqOrd.eq_of_compare equal]
  · intro equal; rw [Std.LawfulEqOrd.eq_of_compare equal]

private theorem chain_of_rank_ne {f g h : Formula}
    (different : f.rank = g.rank → g.rank ≠ h.rank) :
    Chain (cmp f g) (cmp g h) (cmp f h) := by
  have split (f g : Formula) :
      cmp f g = (compare f.rank g.rank).then (cmp f g) := by
    by_cases same : f.rank = g.rank
    · simp [same]
    · rw [cmp_of_rank_ne same]
      cases compare f.rank g.rank <;> rfl
  rw [split f g, split g h, split f h]
  have outer := Chain.of_trans f.rank g.rank h.rank
  have notBoth : ¬ (compare f.rank g.rank = .eq ∧ compare g.rank h.rank = .eq) :=
    fun both => different (Std.LawfulEqOrd.eq_of_compare both.1)
      (Std.LawfulEqOrd.eq_of_compare both.2)
  revert outer notBoth
  cases compare f.rank g.rank <;> cases compare g.rank h.rank <;>
    cases compare f.rank h.rank <;> simp [Chain, Ordering.then]

mutual

private theorem chain_cmp (f g h : Formula) :
    Chain (cmp f g) (cmp g h) (cmp f h) := by
  by_cases first : f.rank = g.rank
  · by_cases second : g.rank = h.rank
    · match f with
      | .bool a =>
          cases g <;> simp [rank] at first
          cases h <;> simp [rank] at second
          exact .of_trans _ _ _
      | .int a =>
          cases g <;> simp [rank] at first
          cases h <;> simp [rank] at second
          exact .of_trans _ _ _
      | .var s x =>
          cases g <;> simp [rank] at first
          cases h <;> simp [rank] at second
          exact .then (.of_trans _ _ _) (.of_trans _ _ _)
      | .unknown p x =>
          cases g <;> simp [rank] at first
          cases h <;> simp [rank] at second
          exact .then (chain_cmpEntries p _ _) (.of_trans _ _ _)
      | .unary o f =>
          cases g <;> simp [rank] at first
          cases h <;> simp [rank] at second
          exact .then (.of_trans _ _ _) (chain_cmp f _ _)
      | .binary o f₁ f₂ =>
          cases g <;> simp [rank] at first
          cases h <;> simp [rank] at second
          exact .then (.of_trans _ _ _)
            (.then (chain_cmp f₁ _ _) (chain_cmp f₂ _ _))
      | .ite f₁ f₂ f₃ =>
          cases g <;> simp [rank] at first
          cases h <;> simp [rank] at second
          exact .then (chain_cmp f₁ _ _)
            (.then (chain_cmp f₂ _ _) (chain_cmp f₃ _ _))
      | .measure s x f =>
          cases g <;> simp [rank] at first
          cases h <;> simp [rank] at second
          exact .then (.of_trans _ _ _)
            (.then (.of_trans _ _ _) (chain_cmp f _ _))
    · exact chain_of_rank_ne fun _ => second
  · exact chain_of_rank_ne fun equal => absurd equal first

private theorem chain_cmpEntries (first second third : List (String × Formula)) :
    Chain (cmpEntries first second) (cmpEntries second third)
      (cmpEntries first third) := by
  match first, second, third with
  | [], [], _ => simp [Chain, cmpEntries]
  | [], _ :: _, [] => simp [Chain, cmpEntries]
  | [], _ :: _, _ :: _ => simp [Chain, cmpEntries]
  | _ :: _, [], [] => simp [Chain, cmpEntries]
  | _ :: _, [], _ :: _ => simp [Chain, cmpEntries]
  | _ :: _, _ :: _, [] => simp [Chain, cmpEntries]
  | (x, f) :: rest, (y, g) :: _, (z, h) :: _ =>
      exact .then (.of_trans _ _ _)
        (.then (chain_cmp f g h) (chain_cmpEntries rest _ _))

end

instance : Std.TransOrd Formula where
  eq_swap {f g} := cmp_swap f g
  isLE_trans {f g h} first second := by
    have chain := chain_cmp f g h
    change (cmp f h).isLE
    change (cmp f g).isLE at first
    change (cmp g h).isLE at second
    revert chain first second
    cases cmp f g <;> cases cmp g h <;> cases cmp f h <;> simp [Chain]

instance : Std.LawfulEqOrd Formula where
  compare_self {f} := cmp_self f
  eq_of_compare equal := eq_of_cmp equal

instance : DecidableEq Formula := fun f g =>
  decidable_of_iff (cmp f g = .eq) ⟨eq_of_cmp, fun equal => equal ▸ cmp_self f⟩

example : compare (Formula.int 5) top = .gt := by decide

example : compare (Formula.unknown [("x", top)] "u") (.unknown [] "v") = .gt := by
  decide

end Formula

end Inhabit
