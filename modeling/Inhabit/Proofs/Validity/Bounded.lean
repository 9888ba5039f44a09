import Inhabit.Formula.Validity

/-! Validity over a bounded domain, apart from the order in which it is checked. -/

namespace Inhabit

theorem Except.exists_of_bind_ok {ε α β : Type} {first : Except ε α}
    {next : α → Except ε β} {result : β} (ran : (first >>= next) = .ok result) :
    ∃ value, first = .ok value ∧ next value = .ok result := by
  cases first with
  | ok value => exact ⟨value, rfl, ran⟩
  | error _ => cases ran

theorem Except.eq_ok_of_toOption {ε α : Type} {result : Except ε α} {value : α}
    (known : result.toOption = some value) : result = .ok value := by
  cases result with
  | ok _ => exact congrArg Except.ok (Option.some.inj known)
  | error _ => cases known

theorem Except.ne_error_of_toOption {ε α : Type} {result : Except ε α} {value : α}
    (known : result.toOption = some value) (error : ε) : result ≠ .error error := by
  rw [eq_ok_of_toOption known]
  exact nofun

namespace Formula

def Admits (bound : Int64) (atom : Formula) (value : Int) : Prop :=
  if atom.sort = .bool then 0 ≤ value ∧ value ≤ 1
  else -bound.toInt ≤ value ∧ value ≤ bound.toInt

theorem admits_zero {bound : Int64} (nonnegative : 0 ≤ bound.toInt) (atom : Formula) :
    Admits bound atom 0 := by
  unfold Admits
  split <;> omega

def Holds (values : Formula → Int) (f : Formula) : Prop :=
  ∃ value, f.evaluate values = .ok value ∧ value ≠ 0

theorem evaluate_congr {values others : Formula → Int} {f : Formula}
    (agree : ∀ atom ∈ f.atomOccurrences, values atom = others atom) :
    f.evaluate values = f.evaluate others := by
  induction f using evaluate.induct with
  | case1 | case2 | case5 => rfl
  | case3 sort name => exact congrArg Except.ok (agree _ List.mem_cons_self)
  | case4 sort name f => exact congrArg Except.ok (agree _ List.mem_cons_self)
  | case6 f induction => simp only [evaluate, induction agree]
  | case7 f induction => simp only [evaluate, induction agree]
  | case8 op f g first second =>
      simp only [atomOccurrences, List.mem_append] at agree
      simp only [evaluate, first fun atom member => agree atom (.inl member),
        second fun atom member => agree atom (.inr member)]
  | case9 f g h first second third =>
      simp only [atomOccurrences, List.mem_append] at agree
      simp only [evaluate, first fun atom member => agree atom (.inl member),
        second fun atom member => agree atom (.inr (.inl member)),
        third fun atom member => agree atom (.inr (.inr member))]

theorem checkValues_iff {check : Int → Except Trap Bool} {count : Nat} {first : Int} :
    checkValues check count first = .ok true ↔
      ∀ value, first ≤ value → value < first + count → check value = .ok true := by
  induction count generalizing first with
  | zero =>
      constructor
      · intro _ value least greatest
        omega
      · exact fun _ => rfl
  | succ count induction =>
      unfold checkValues
      cases here : check first with
      | error trap =>
          constructor
          · exact nofun
          · intro all
            have passes := all first (by omega) (by omega)
            rw [here] at passes
            cases passes
      | ok passes =>
          cases passes with
          | false =>
              constructor
              · exact nofun
              · intro all
                have passes := all first (by omega) (by omega)
                rw [here] at passes
                cases passes
          | true =>
              change checkValues check count (first + 1) = .ok true ↔ _
              rw [induction]
              constructor
              · intro rest value least greatest
                by_cases same : value = first
                · rw [same, here]
                · exact rest value (by omega) (by omega)
              · intro all value least greatest
                exact all value (by omega) (by omega)

theorem exists_of_checkValues_eq {check : Int → Except Trap Bool} {count : Nat} {first : Int}
    {result : Except Trap Bool} (ran : checkValues check count first = result)
    (early : result ≠ .ok true) :
    ∃ value, first ≤ value ∧ value < first + count ∧ check value = result := by
  induction count generalizing first with
  | zero => exact absurd ran.symm early
  | succ count induction =>
      have found (here : check first = result) :
          ∃ value, first ≤ value ∧ value < first + (count + 1 : Nat) ∧ check value = result :=
        ⟨first, by omega, by omega, here⟩
      unfold checkValues at ran
      cases here : check first with
      | error trap =>
          rw [here] at ran
          exact found (here.trans ran)
      | ok passes =>
          rw [here] at ran
          cases passes with
          | false => exact found (here.trans ran)
          | true =>
              rcases induction ran with ⟨value, least, greatest, later⟩
              exact ⟨value, by omega, by omega, later⟩

inductive Extends : List (Formula × Int × Int) → List (Formula × Int) →
    List (Formula × Int) → Prop where
  | done (chosen : List (Formula × Int)) : Extends [] chosen chosen
  | choose {atom : Formula} {value : Int} {range : Int × Int}
      {rest : List (Formula × Int × Int)} {chosen final : List (Formula × Int)}
      (above : range.1 ≤ value) (below : value ≤ range.2)
      (later : Extends rest ((atom, value) :: chosen) final) :
      Extends ((atom, range) :: rest) chosen final

def valuesOf (chosen : List (Formula × Int)) (atom : Formula) : Int :=
  (chosen.lookup atom).getD 0

def verdict (values : Formula → Int) (f : Formula) : Except Trap Bool := do
  return (← f.evaluate values) != 0

theorem verdict_eq_true {values : Formula → Int} {f : Formula} :
    f.verdict values = .ok true ↔ f.Holds values := by
  unfold verdict Holds
  cases f.evaluate values with
  | error trap => exact ⟨nofun, nofun⟩
  | ok value =>
      change Except.ok (value != 0) = Except.ok true ↔ _
      simp

theorem holdsThroughout_iff {f : Formula} {ranges : List (Formula × Int × Int)}
    {chosen : List (Formula × Int)} :
    f.holdsThroughout ranges chosen = .ok true ↔
      ∀ final, Extends ranges chosen final → f.Holds (valuesOf final) := by
  induction ranges generalizing chosen with
  | nil =>
      apply verdict_eq_true.trans
      constructor
      · intro holds final choice
        cases choice
        exact holds
      · exact fun all => all chosen (.done chosen)
  | cons entry rest induction =>
      rcases entry with ⟨atom, least, greatest⟩
      unfold holdsThroughout
      rw [checkValues_iff]
      constructor
      · intro all final choice
        cases choice with
        | @choose _ value _ _ _ _ above below later =>
            dsimp only at above below
            exact induction.mp (all value above (by omega)) final later
      · intro all value above below
        apply induction.mpr
        intro final later
        exact all final (.choose above (show value ≤ greatest by omega) later)

theorem exists_of_holdsThroughout_eq {f : Formula} {ranges : List (Formula × Int × Int)}
    {chosen : List (Formula × Int)} {result : Except Trap Bool}
    (ran : f.holdsThroughout ranges chosen = result) (early : result ≠ .ok true) :
    ∃ final, Extends ranges chosen final ∧ f.verdict (valuesOf final) = result := by
  induction ranges generalizing chosen with
  | nil => exact ⟨chosen, .done chosen, ran⟩
  | cons entry rest induction =>
      rcases entry with ⟨atom, least, greatest⟩
      rcases exists_of_checkValues_eq ran early with ⟨value, above, below, later⟩
      rcases induction later with ⟨final, choice, verdict⟩
      exact ⟨final, .choose above (show value ≤ greatest by omega) choice, verdict⟩

/-! ## All assignments in range -/

def limits (bound : Int64) (atom : Formula) : Int × Int :=
  if atom.sort = .bool then (0, 1) else (-bound.toInt, bound.toInt)

theorem admits_iff {bound : Int64} {atom : Formula} {value : Int} :
    Admits bound atom value ↔
      (limits bound atom).1 ≤ value ∧ value ≤ (limits bound atom).2 := by
  unfold Admits limits
  split <;> rfl

theorem atomRange_eq {bound : Int64} (nonnegative : 0 ≤ bound.toInt) (atom : Formula) :
    atomRange bound atom = .ok (limits bound atom) := by
  have proper : bound.toInt ≠ leastValue := by
    unfold leastValue
    omega
  have negated : negate bound.toInt = .ok (-bound.toInt) := if_neg proper
  unfold atomRange limits
  split
  · rfl
  · rw [negated]
    rfl

def isValidOver (bound : Int64) (atoms : List Formula) (f : Formula) : Except Trap Bool := do
  let ranges ← atoms.mapM fun atom => do return (atom, ← atomRange bound atom)
  f.holdsThroughout ranges []

theorem isValidOver_eq {bound : Int64} (nonnegative : 0 ≤ bound.toInt) (atoms : List Formula)
    (f : Formula) :
    f.isValidOver bound atoms =
      f.holdsThroughout (atoms.map fun atom => (atom, limits bound atom)) [] := by
  have ranges : (atoms.mapM fun atom => do return (atom, ← atomRange bound atom) :
      Except Trap (List (Formula × Int × Int))) =
      .ok (atoms.map fun atom => (atom, limits bound atom)) := by
    induction atoms with
    | nil => rfl
    | cons atom rest induction =>
        rw [List.mapM_cons, atomRange_eq nonnegative, induction]
        rfl
  unfold isValidOver
  rw [ranges]
  rfl

theorem isValid_eq {bound : Int64} (nonnegative : 0 ≤ bound.toInt) (f : Formula) :
    f.isValid bound =
      f.holdsThroughout (f.atoms.map fun atom => (atom, limits bound atom)) [] :=
  isValidOver_eq nonnegative f.atoms f

theorem exists_extends {bound : Int64} {values : Formula → Int}
    (inRange : ∀ atom, Admits bound atom (values atom)) (atoms : List Formula)
    (chosen : List (Formula × Int)) :
    ∃ final, Extends (atoms.map fun atom => (atom, limits bound atom)) chosen final ∧
      ∀ atom, final.lookup atom =
        if atom ∈ atoms then some (values atom) else chosen.lookup atom := by
  induction atoms generalizing chosen with
  | nil => exact ⟨chosen, .done chosen, fun atom => by simp⟩
  | cons head rest induction =>
      rcases induction ((head, values head) :: chosen) with ⟨final, later, lookups⟩
      have within := admits_iff.mp (inRange head)
      refine ⟨final, .choose within.1 within.2 later, ?_⟩
      intro atom
      rw [lookups, List.lookup_cons]
      by_cases inRest : atom ∈ rest
      · simp [inRest]
      · by_cases same : atom = head
        · simp [same]
        · rw [beq_false_of_ne same]
          simp [inRest, same]

theorem Extends.admits {bound : Int64} {atoms : List Formula}
    {chosen final : List (Formula × Int)}
    (choice : Extends (atoms.map fun atom => (atom, limits bound atom)) chosen final)
    (inRange : ∀ entry ∈ chosen, Admits bound entry.1 entry.2) :
    ∀ entry ∈ final, Admits bound entry.1 entry.2 := by
  induction atoms generalizing chosen with
  | nil =>
      cases choice
      exact inRange
  | cons head rest induction =>
      cases choice with
      | choose above below later =>
          apply induction later
          intro entry member
          rcases List.mem_cons.mp member with rfl | member
          · exact admits_iff.mpr ⟨above, below⟩
          · exact inRange entry member

theorem admits_valuesOf {bound : Int64} (nonnegative : 0 ≤ bound.toInt)
    {chosen : List (Formula × Int)}
    (inRange : ∀ entry ∈ chosen, Admits bound entry.1 entry.2) (atom : Formula) :
    Admits bound atom (valuesOf chosen atom) := by
  unfold valuesOf
  cases found : chosen.lookup atom with
  | none => exact admits_zero nonnegative atom
  | some value =>
      rcases List.lookup_eq_some_iff.mp found with ⟨_, _, split, _⟩
      exact inRange (atom, value) (by simp [split])

theorem isValidOver_iff {bound : Int64} (nonnegative : 0 ≤ bound.toInt) {f : Formula}
    {atoms : List Formula} (covers : ∀ atom ∈ f.atomOccurrences, atom ∈ atoms) :
    f.isValidOver bound atoms = .ok true ↔
      ∀ values : Formula → Int, (∀ atom, Admits bound atom (values atom)) →
        f.Holds values := by
  rw [isValidOver_eq nonnegative, holdsThroughout_iff]
  constructor
  · intro all values inRange
    rcases exists_extends inRange atoms [] with ⟨final, choice, lookups⟩
    rcases all final choice with ⟨value, equal, notZero⟩
    refine ⟨value, ?_, notZero⟩
    rw [← equal]
    apply evaluate_congr
    intro atom member
    rw [valuesOf, lookups, if_pos (covers atom member), Option.getD_some]
  · intro all final choice
    exact all _ (admits_valuesOf nonnegative (choice.admits nofun))

/-- A formula is valid if it holds whatever values in range its atoms have. -/
theorem isValid_iff {bound : Int64} (nonnegative : 0 ≤ bound.toInt) {f : Formula} :
    f.isValid bound = .ok true ↔
      ∀ values : Formula → Int, (∀ atom, Admits bound atom (values atom)) →
        f.Holds values :=
  isValidOver_iff nonnegative fun _ => List.mem_eraseDups.mpr

theorem exists_of_isValidOver_eq {bound : Int64} (nonnegative : 0 ≤ bound.toInt) {f : Formula}
    {atoms : List Formula} {result : Except Trap Bool}
    (ran : f.isValidOver bound atoms = result) (early : result ≠ .ok true) :
    ∃ values : Formula → Int, (∀ atom, Admits bound atom (values atom)) ∧
      f.verdict values = result := by
  rw [isValidOver_eq nonnegative] at ran
  rcases exists_of_holdsThroughout_eq ran early with ⟨final, choice, verdict⟩
  exact ⟨valuesOf final, admits_valuesOf nonnegative (choice.admits nofun), verdict⟩

end Formula

end Inhabit
