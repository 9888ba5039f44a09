import Inhabit.Typing.Skeleton
import Mathlib

/-! First-order terms, their substitutions and their sizes: what unification is
about once refinements and the names of arguments are erased from types. -/

namespace Inhabit

inductive TypeSymbol where
  | scalar (base : BaseType)
  | function
  deriving DecidableEq

inductive TypeTerm where
  | var (name : String)
  | node (symbol : TypeSymbol) (arguments : List TypeTerm)

namespace TypeTerm

theorem induction {motive : TypeTerm → Prop}
    (var : ∀ name, motive (.var name))
    (node : ∀ symbol arguments, (∀ t ∈ arguments, motive t) →
      motive (.node symbol arguments)) : ∀ t, motive t
  | .var name => var name
  | .node symbol arguments =>
      node symbol arguments fun t _ => induction var node t

mutual

def substitute (image : String → TypeTerm) : TypeTerm → TypeTerm
  | .var name => image name
  | .node symbol arguments => .node symbol (substituteAll image arguments)
termination_by structural t => t

def substituteAll (image : String → TypeTerm) : List TypeTerm → List TypeTerm
  | [] => []
  | t :: rest => substitute image t :: substituteAll image rest
termination_by structural ts => ts

end

mutual

def vars : TypeTerm → List String
  | .var name => [name]
  | .node _ arguments => varsAll arguments
termination_by structural t => t

def varsAll : List TypeTerm → List String
  | [] => []
  | t :: rest => vars t ++ varsAll rest
termination_by structural ts => ts

end

mutual

def size : TypeTerm → Nat
  | .var _ => 1
  | .node _ arguments => sizeAll arguments + 1
termination_by structural t => t

def sizeAll : List TypeTerm → Nat
  | [] => 0
  | t :: rest => size t + sizeAll rest
termination_by structural ts => ts

end

theorem substituteAll_eq_map (image : String → TypeTerm) (ts : List TypeTerm) :
    substituteAll image ts = ts.map (substitute image) := by
  induction ts with
  | nil => rfl
  | cons _ _ induction => exact congrArg (_ :: ·) induction

theorem varsAll_eq_flatMap (ts : List TypeTerm) :
    varsAll ts = ts.flatMap vars := by
  induction ts with
  | nil => rfl
  | cons _ _ induction => exact congrArg (_ ++ ·) induction

theorem sizeAll_eq_sum (ts : List TypeTerm) :
    sizeAll ts = (ts.map size).sum := by
  induction ts with
  | nil => rfl
  | cons _ _ induction => simp [sizeAll, induction]

@[simp] theorem substitute_var (image : String → TypeTerm) (name : String) :
    (var name).substitute image = image name := rfl

@[simp] theorem substitute_node (image : String → TypeTerm) (symbol : TypeSymbol)
    (arguments : List TypeTerm) :
    (node symbol arguments).substitute image =
      node symbol (arguments.map (substitute image)) := by
  rw [substitute, substituteAll_eq_map]

@[simp] theorem vars_var (name : String) : (var name).vars = [name] := rfl

@[simp] theorem vars_node (symbol : TypeSymbol) (arguments : List TypeTerm) :
    (node symbol arguments).vars = arguments.flatMap vars := by
  rw [vars, varsAll_eq_flatMap]

@[simp] theorem size_var (name : String) : (var name).size = 1 := rfl

@[simp] theorem size_node (symbol : TypeSymbol) (arguments : List TypeTerm) :
    (node symbol arguments).size = (arguments.map size).sum + 1 := by
  rw [size, sizeAll_eq_sum]

theorem size_pos (t : TypeTerm) : 0 < t.size := by
  cases t <;> simp

/-! ## Substitution -/

theorem substitute_congr {first second : String → TypeTerm} {t : TypeTerm}
    (equal : ∀ name ∈ t.vars, first name = second name) :
    t.substitute first = t.substitute second := by
  induction t using TypeTerm.induction with
  | var name => exact equal name (by simp)
  | node symbol arguments induction =>
      rw [substitute_node, substitute_node]
      refine congrArg (node symbol) (List.map_congr_left fun t member => ?_)
      refine induction t member fun name occurs => equal name ?_
      rw [vars_node]
      exact List.mem_flatMap.mpr ⟨t, member, occurs⟩

theorem eq_of_substitute_eq {first second : String → TypeTerm} {t : TypeTerm}
    (equal : t.substitute first = t.substitute second) :
    ∀ name ∈ t.vars, first name = second name := by
  induction t using TypeTerm.induction with
  | var other =>
      rw [vars_var, List.forall_mem_singleton]
      exact equal
  | node symbol arguments induction =>
      rw [substitute_node, substitute_node, node.injEq, List.map_inj_left] at equal
      rw [vars_node, List.forall_mem_flatMap]
      exact fun t member => induction t member (equal.2 t member)

theorem substitute_substitute (first second : String → TypeTerm) (t : TypeTerm) :
    (t.substitute first).substitute second =
      t.substitute fun name => (first name).substitute second := by
  induction t using TypeTerm.induction with
  | var name => rfl
  | node symbol arguments induction =>
      simp only [substitute_node, List.map_map]
      exact congrArg (node symbol) (List.map_congr_left induction)

theorem mem_vars_substitute {image : String → TypeTerm} {t : TypeTerm}
    {name : String} :
    name ∈ (t.substitute image).vars ↔
      ∃ other ∈ t.vars, name ∈ (image other).vars := by
  induction t using TypeTerm.induction with
  | var other => simp
  | node symbol arguments induction =>
      simp only [substitute_node, vars_node, List.mem_flatMap, List.mem_map]
      constructor
      · rintro ⟨_, ⟨t, member, rfl⟩, occurs⟩
        rcases (induction t member).mp occurs with ⟨other, inside, found⟩
        exact ⟨other, ⟨t, member, inside⟩, found⟩
      · rintro ⟨other, ⟨t, member, inside⟩, found⟩
        exact ⟨_, ⟨t, member, rfl⟩, (induction t member).mpr ⟨other, inside, found⟩⟩

/-! ## Kinds -/

inductive WellKinded : TypeTerm → Prop where
  | var (name : String) : WellKinded (.var name)
  | node {symbol : TypeSymbol} {arguments : List TypeTerm}
      (proper : ∀ name, symbol ≠ .scalar (.typeVar name))
      (inner : ∀ t ∈ arguments, WellKinded t) : WellKinded (.node symbol arguments)

theorem wellKinded_node_iff {symbol : TypeSymbol} {arguments : List TypeTerm} :
    (node symbol arguments).WellKinded ↔
      (∀ name, symbol ≠ .scalar (.typeVar name)) ∧ ∀ t ∈ arguments, t.WellKinded := by
  constructor
  · intro kinded
    cases kinded with
    | node proper inner => exact ⟨proper, inner⟩
  · exact fun parts => .node parts.1 parts.2

instance decidableProper (symbol : TypeSymbol) :
    Decidable (∀ name, symbol ≠ .scalar (.typeVar name)) :=
  match symbol with
  | .scalar (.typeVar name) => isFalse fun proper => proper name rfl
  | .scalar .bool | .scalar .int | .scalar (.data _) | .function => isTrue (by simp)

mutual

instance decidableWellKinded (t : TypeTerm) : Decidable t.WellKinded :=
  match t with
  | .var name => isTrue (.var name)
  | .node symbol arguments =>
      have := decidableWellKindedAll arguments
      decidable_of_iff ((∀ name, symbol ≠ .scalar (.typeVar name)) ∧
        ∀ t ∈ arguments, t.WellKinded) wellKinded_node_iff.symm
termination_by structural t

instance decidableWellKindedAll (ts : List TypeTerm) : Decidable (∀ t ∈ ts, t.WellKinded) :=
  match ts with
  | [] => isTrue (List.forall_mem_nil _)
  | t :: rest =>
      have := decidableWellKinded t
      have := decidableWellKindedAll rest
      decidable_of_iff (t.WellKinded ∧ ∀ t ∈ rest, t.WellKinded) List.forall_mem_cons.symm
termination_by structural ts

end

theorem WellKinded.substitute {image : String → TypeTerm} {t : TypeTerm}
    (kinded : t.WellKinded) (images : ∀ name ∈ t.vars, (image name).WellKinded) :
    (t.substitute image).WellKinded := by
  induction kinded with
  | var name => exact images name (by simp)
  | node proper _ induction =>
      rw [substitute_node]
      refine .node proper fun t member => ?_
      obtain ⟨original, inside, rfl⟩ := List.mem_map.mp member
      refine induction original inside fun name occurs => images name ?_
      rw [vars_node]
      exact List.mem_flatMap.mpr ⟨original, inside, occurs⟩

/-! ## Sizes -/

private theorem sum_le_sum_map {cost : String → Nat} {room : TypeTerm → Nat}
    {ts : List TypeTerm}
    (enough : ∀ t ∈ ts, ∀ names : Finset String, (∀ name ∈ names, name ∈ t.vars) →
      ∑ name ∈ names, cost name ≤ room t)
    (names : Finset String) (occur : ∀ name ∈ names, ∃ t ∈ ts, name ∈ t.vars) :
    ∑ name ∈ names, cost name ≤ (ts.map room).sum := by
  induction ts generalizing names with
  | nil =>
      have none : names = ∅ := Finset.eq_empty_of_forall_notMem
        fun name member => by simpa using occur name member
      simp [none]
  | cons head rest induction =>
      have parts := Finset.sum_filter_add_sum_filter_not names (· ∈ head.vars) cost
      have inHead := enough head (by simp) (names.filter (· ∈ head.vars)) (by simp)
      have inRest := induction
        (fun t member => enough t (List.mem_cons_of_mem head member))
        (names.filter (· ∉ head.vars)) fun name member => by
          rw [Finset.mem_filter] at member
          rcases occur name member.1 with ⟨t, inList, occurs⟩
          rcases List.mem_cons.mp inList with equal | inRest
          · exact absurd (equal ▸ occurs) member.2
          · exact ⟨t, inRest, occurs⟩
      rw [List.map_cons, List.sum_cons]
      omega

/-- The images of different variables of a term take up separate room in the
image of the term. -/
theorem sum_size_le_substitute (image : String → TypeTerm) (t : TypeTerm)
    (names : Finset String) (occur : ∀ name ∈ names, name ∈ t.vars) :
    ∑ name ∈ names, (image name).size ≤ (t.substitute image).size := by
  induction t using TypeTerm.induction generalizing names with
  | var other =>
      have within : names ⊆ {other} := fun name member => by
        simpa using occur name member
      exact (Finset.sum_le_sum_of_subset within).trans_eq (by simp)
  | node symbol arguments induction =>
      rw [substitute_node, size_node, List.map_map]
      exact Nat.le_succ_of_le (sum_le_sum_map induction names
        fun name member => by simpa using occur name member)

theorem sum_size_lt_substitute_node (image : String → TypeTerm)
    (symbol : TypeSymbol) (arguments : List TypeTerm) (names : Finset String)
    (occur : ∀ name ∈ names, name ∈ (node symbol arguments).vars) :
    ∑ name ∈ names, (image name).size <
      ((node symbol arguments).substitute image).size := by
  rw [substitute_node, size_node, List.map_map]
  exact Nat.lt_succ_of_le (sum_le_sum_map
    (fun t _ => sum_size_le_substitute image t) names
    fun name member => by simpa using occur name member)

/-- No substitution makes a variable equal to a term that properly contains it. -/
theorem size_lt_substitute_of_mem {image : String → TypeTerm} {t : TypeTerm}
    {name : String} (occurs : name ∈ t.vars) (proper : t ≠ var name) :
    (image name).size < (t.substitute image).size := by
  cases t with
  | var other =>
      rw [vars_var, List.mem_singleton] at occurs
      exact absurd (congrArg var occurs.symm) proper
  | node symbol arguments =>
      have room := sum_size_lt_substitute_node image symbol arguments {name}
        (by simpa using occurs)
      simpa using room

end TypeTerm

end Inhabit
