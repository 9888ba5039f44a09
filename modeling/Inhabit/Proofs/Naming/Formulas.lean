import Inhabit.Proofs.Unknowns.Formulas
import Inhabit.Proofs.Validity.Bounded

/-! Renaming a variable in a formula, and how it gets along with the replacement of
variables by variables. -/

namespace Inhabit

namespace Formula

@[simp] def mapVars (image : LogicSort → String → Formula) : Formula → Formula
  | .bool b => .bool b
  | .int n => .int n
  | .var sort name => image sort name
  | .unknown pending name => .unknown pending name
  | .unary op f => .unary op (mapVars image f)
  | .binary op f g => .binary op (mapVars image f) (mapVars image g)
  | .ite f g h => .ite (mapVars image f) (mapVars image g) (mapVars image h)
  | .measure sort name f => .measure sort name (mapVars image f)

section MapVars

variable {image other : LogicSort → String → Formula}

theorem mapVars_congr {f : Formula}
    (agree : ∀ sort, ∀ name ∈ f.variableOccurrences, image sort name = other sort name) :
    f.mapVars image = f.mapVars other := by
  induction f using Formula.induction with
  | bool | int | unknown => rfl
  | var sort name => exact agree sort name List.mem_cons_self
  | unary op f induction | measure sort name f induction =>
      rw [mapVars, mapVars, induction agree]
  | binary op f g first second =>
      simp only [variableOccurrences, List.mem_append] at agree
      rw [mapVars, mapVars, first fun sort name member => agree sort name (.inl member),
        second fun sort name member => agree sort name (.inr member)]
  | ite f g h first second third =>
      simp only [variableOccurrences, List.mem_append] at agree
      rw [mapVars, mapVars, first fun sort name member => agree sort name (.inl member),
        second fun sort name member => agree sort name (.inr (.inl member)),
        third fun sort name member => agree sort name (.inr (.inr member))]

theorem mapVars_mapVars (f : Formula) :
    (f.mapVars image).mapVars other =
      f.mapVars fun sort name => (image sort name).mapVars other := by
  induction f using Formula.induction with
  | bool | int | var | unknown => rfl
  | unary op f induction | measure sort name f induction => simp only [mapVars, induction]
  | binary op f g first second => simp only [mapVars, first, second]
  | ite f g h first second third => simp only [mapVars, first, second, third]

@[simp] theorem mapVars_var (f : Formula) : f.mapVars .var = f := by
  induction f using Formula.induction with
  | bool | int | var | unknown => rfl
  | unary op f induction | measure sort name f induction => rw [mapVars, induction]
  | binary op f g first second => rw [mapVars, first, second]
  | ite f g h first second third => rw [mapVars, first, second, third]

theorem Known.mapVars {f : Formula} (known : f.Known)
    (images : ∀ sort name, (image sort name).Known) : (f.mapVars image).Known := by
  unfold Known at known ⊢
  induction f using Formula.induction with
  | bool | int => rfl
  | var sort name => exact images sort name
  | unknown => cases known
  | unary op f induction | measure sort name f induction => exact induction known
  | binary op f g first second =>
      rcases List.append_eq_nil_iff.mp known with ⟨left, right⟩
      rw [Formula.mapVars, unknownOccurrences, first left, second right]
      rfl
  | ite f g h first second third =>
      rcases List.append_eq_nil_iff.mp known with ⟨condition, branches⟩
      rcases List.append_eq_nil_iff.mp branches with ⟨left, right⟩
      rw [Formula.mapVars, unknownOccurrences, first condition, second left, third right]
      rfl

theorem variableOccurrences_mapVars {f : Formula} {rename : String → String}
    (known : f.Known)
    (images : ∀ sort name, (image sort name).variableOccurrences = [rename name]) :
    (f.mapVars image).variableOccurrences = f.variableOccurrences.map rename := by
  unfold Known at known
  induction f using Formula.induction with
  | bool | int => rfl
  | var sort name => exact images sort name
  | unknown => cases known
  | unary op f induction | measure sort name f induction => exact induction known
  | binary op f g first second =>
      rcases List.append_eq_nil_iff.mp known with ⟨left, right⟩
      simp only [mapVars, variableOccurrences, List.map_append, first left, second right]
  | ite f g h first second third =>
      rcases List.append_eq_nil_iff.mp known with ⟨condition, branches⟩
      rcases List.append_eq_nil_iff.mp branches with ⟨left, right⟩
      simp only [mapVars, variableOccurrences, List.map_append, first condition,
        second left, third right]

/-- Without unknowns, a substitution is nothing but a change of variables. -/
theorem substitute_eq_mapVars {f : Formula} (known : f.Known)
    (substitution : Substitution) :
    f.substitute substitution = f.mapVars fun sort name =>
      (Entries.find? name substitution).getD (.var sort name) := by
  unfold Known at known
  induction f using Formula.induction with
  | bool | int | var => rfl
  | unknown => cases known
  | unary op f induction | measure sort name f induction =>
      rw [substitute, mapVars, induction known]
  | binary op f g first second =>
      rcases List.append_eq_nil_iff.mp known with ⟨left, right⟩
      rw [substitute, mapVars, first left, second right]
  | ite f g h first second third =>
      rcases List.append_eq_nil_iff.mp known with ⟨condition, branches⟩
      rcases List.append_eq_nil_iff.mp branches with ⟨left, right⟩
      rw [substitute, mapVars, first condition, second left, third right]

end MapVars

/-! ## Renaming -/

def rename (old new : String) (f : Formula) : Formula :=
  f.mapVars fun sort name => .var sort (if name = old then new else name)

section Rename

variable {x y old new : String} {sort : LogicSort} {replacement : Formula}

theorem rename_of_not_mem {f : Formula} (absent : old ∉ f.variableOccurrences) :
    f.rename old new = f := by
  apply Eq.trans _ f.mapVars_var
  apply mapVars_congr
  intro sort name member
  rw [if_neg (ne_of_mem_of_not_mem member absent)]

@[simp] theorem rename_self (f : Formula) : f.rename old old = f := by
  apply Eq.trans _ f.mapVars_var
  apply mapVars_congr
  intro sort name _
  split
  · simp_all
  · rfl

@[simp] theorem sort_rename (f : Formula) : (f.rename old new).sort = f.sort := by
  unfold rename
  induction f using Formula.induction with
  | bool | int | var | unknown | measure => rfl
  | unary op f _ => cases op <;> rfl
  | binary op f g _ _ => rfl
  | ite f g h _ second _ => exact second

@[simp] theorem isTrue_rename (f : Formula) : (f.rename old new).isTrue = f.isTrue := by
  cases f <;> rfl

@[simp] theorem isFalse_rename (f : Formula) : (f.rename old new).isFalse = f.isFalse := by
  cases f <;> rfl

/-- A renamed formula has the value that the formula has if the renamed atoms lend
theirs. -/
theorem evaluate_rename (values : Formula → Int) (f : Formula) :
    (f.rename old new).evaluate values =
      f.evaluate fun atom => values (atom.rename old new) := by
  unfold rename
  induction f using Formula.induction with
  | bool | int | var | unknown | measure => rfl
  | unary op f induction => cases op <;> simp only [mapVars, evaluate, induction]
  | binary op f g first second => simp only [mapVars, evaluate, first, second]
  | ite f g h first second third => simp only [mapVars, evaluate, first, second, third]

theorem rename_rename {f : Formula} (absent : new ∉ f.variableOccurrences) :
    (f.rename old new).rename new old = f := by
  rw [rename, rename, mapVars_mapVars]
  apply Eq.trans _ f.mapVars_var
  apply mapVars_congr
  intro sort name member
  have different := ne_of_mem_of_not_mem member absent
  by_cases same : name = old <;> simp [mapVars, same, different]

theorem Known.rename {f : Formula} (known : f.Known) : (f.rename old new).Known :=
  known.mapVars fun _ _ => rfl

theorem variableOccurrences_rename {f : Formula} (known : f.Known) :
    (f.rename old new).variableOccurrences =
      f.variableOccurrences.map fun name => if name = old then new else name :=
  variableOccurrences_mapVars known fun _ _ => rfl

/-! ## Replacing one variable -/

theorem find?_singleton (name x : String) (replacement : Formula) :
    Entries.find? name [(x, replacement)] = if name = x then some replacement else none := by
  by_cases same : name = x
  · simp [Entries.find?, same]
  · have different : compare name x ≠ .eq := fun equal =>
      same (Std.LawfulEqOrd.eq_of_compare equal)
    simp [Entries.find?, same, different]

theorem substitute_singleton {f : Formula} (known : f.Known) :
    f.substitute [(x, replacement)] =
      f.mapVars fun sort name => if name = x then replacement else .var sort name := by
  rw [substitute_eq_mapVars known]
  apply mapVars_congr
  intro sort name _
  rw [find?_singleton]
  split <;> rfl

theorem substitute_of_not_mem {f : Formula} (known : f.Known)
    (absent : x ∉ f.variableOccurrences) : f.substitute [(x, replacement)] = f := by
  rw [substitute_singleton known]
  apply Eq.trans _ f.mapVars_var
  apply mapVars_congr
  intro sort name member
  rw [if_neg (ne_of_mem_of_not_mem member absent)]

theorem Known.substitute {f : Formula} (known : f.Known) (sort : LogicSort) :
    (f.substitute [(x, .var sort y)]).Known := by
  rw [substitute_singleton known]
  apply known.mapVars
  intro _ name
  split <;> rfl

theorem variableOccurrences_substitute {f : Formula} (known : f.Known) (sort : LogicSort) :
    (f.substitute [(x, .var sort y)]).variableOccurrences =
      f.variableOccurrences.map fun name => if name = x then y else name := by
  rw [substitute_singleton known]
  apply variableOccurrences_mapVars known
  intro _ name
  split <;> rfl

theorem substitute_rename {f : Formula} (known : f.Known)
    (absent : new ∉ f.variableOccurrences) :
    (f.rename x new).substitute [(new, replacement)] = f.substitute [(x, replacement)] := by
  rw [substitute_singleton known.rename, substitute_singleton known, rename, mapVars_mapVars]
  apply mapVars_congr
  intro sort name member
  have different := ne_of_mem_of_not_mem member absent
  by_cases same : name = x <;> simp [mapVars, same, different]

theorem rename_substitute {f : Formula} (known : f.Known)
    (absent : y = x ∨ y ∉ f.variableOccurrences) :
    (f.substitute [(x, .var sort y)]).rename y new = f.substitute [(x, .var sort new)] := by
  rw [substitute_singleton known, substitute_singleton known, rename, mapVars_mapVars]
  apply mapVars_congr
  intro _ name member
  by_cases same : name = x
  · simp [mapVars, same]
  · have different : name ≠ y := by
      rintro rfl
      exact absent.elim same fun absent => absent member
    simp [mapVars, same, different]

theorem substitute_rename_comm {f : Formula} (known : f.Known) (notOld : x ≠ old)
    (notNew : x ≠ new) (otherNotOld : y ≠ old) :
    (f.rename old new).substitute [(x, .var sort y)] =
      (f.substitute [(x, .var sort y)]).rename old new := by
  rw [substitute_singleton known.rename, substitute_singleton known, rename, rename,
    mapVars_mapVars, mapVars_mapVars]
  apply mapVars_congr
  intro _ name _
  by_cases isOld : name = old
  · simp [mapVars, isOld, notOld.symm, notNew.symm]
  · by_cases same : name = x <;> simp [mapVars, isOld, same, notOld, otherNotOld]

end Rename

end Formula

end Inhabit
