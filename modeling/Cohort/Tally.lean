import Cohort.Sum
import Cohort.Table

/-!
Tallies: how often each key was counted.

Only positive counts are stored, so two tallies with the same counts are equal.
-/

namespace Cohort

variable {κ : Type}

/-- A table of counts without a zero. -/
structure Tally (κ : Type) [Ord κ] [Std.TransOrd κ] where
  table : Table κ Nat
  positive : ∀ key : κ, table[key]? ≠ some 0

namespace Tally

section

variable [Ord κ] [Std.TransOrd κ]

instance : EmptyCollection (Tally κ) := ⟨∅, by simp⟩

instance : Inhabited (Tally κ) := ⟨∅⟩

theorem eq_of_table {left right : Tally κ} (same : left.table = right.table) : left = right := by
  cases left; cases right; cases same; rfl

instance [Std.LawfulEqOrd κ] : DecidableEq (Tally κ) := fun left right =>
  if same : left.table = right.table then .isTrue (eq_of_table same)
  else .isFalse fun equal => same (congrArg table equal)

def count (t : Tally κ) (key : κ) : Nat :=
  t.table[key]?.getD 0

def entries (t : Tally κ) : List (κ × Nat) :=
  t.table.toList

def keys (t : Tally κ) : List κ :=
  t.table.keys

def size (t : Tally κ) : Nat :=
  t.table.size

def isEmpty (t : Tally κ) : Bool :=
  t.table.isEmpty

def total (t : Tally κ) : Nat :=
  addUp (t.entries.map (·.2))

@[simp] theorem count_empty (key : κ) : (∅ : Tally κ).count key = 0 := by
  change ((∅ : Table κ Nat)[key]?).getD 0 = 0
  simp

@[simp] theorem entries_empty : (∅ : Tally κ).entries = [] :=
  rfl

theorem getElem?_table (t : Tally κ) (key : κ) :
    t.table[key]? = if t.count key = 0 then none else some (t.count key) := by
  have nonzero := t.positive key
  unfold count
  cases found : t.table[key]? with
  | none => simp
  | some n =>
    have : n ≠ 0 := fun zero => nonzero (by rw [found, zero])
    simp [this]

end

variable [Ord κ] [Std.TransOrd κ] [Std.LawfulEqOrd κ]

/-- Replace one count; a count that becomes zero is dropped. -/
def update (t : Tally κ) (key : κ) (f : Nat → Nat) : Tally κ where
  table := t.table.alter key fun old =>
    let new := f (old.getD 0)
    if new = 0 then none else some new
  positive other := by
    rw [Std.ExtTreeMap.getElem?_alter]
    split
    · dsimp only
      split <;> simp_all
    · exact t.positive other

def add (t : Tally κ) (key : κ) (n : Nat) : Tally κ :=
  t.update key (· + n)

def subtract (t : Tally κ) (key : κ) (n : Nat) : Tally κ :=
  t.update key (· - n)

@[simp] theorem count_update (t : Tally κ) (key other : κ) (f : Nat → Nat) :
    (t.update key f).count other =
      if compare key other = .eq then f (t.count key) else t.count other := by
  unfold count update
  rw [Std.ExtTreeMap.getElem?_alter]
  split
  · dsimp only
    split
    next zero => simp [zero]
    next => rfl
  · rfl

@[simp] theorem count_add (t : Tally κ) (key other : κ) (n : Nat) :
    (t.add key n).count other =
      if compare key other = .eq then t.count key + n else t.count other :=
  t.count_update key other _

@[simp] theorem count_subtract (t : Tally κ) (key other : κ) (n : Nat) :
    (t.subtract key n).count other =
      if compare key other = .eq then t.count key - n else t.count other :=
  t.count_update key other _

@[ext] theorem ext {left right : Tally κ} (same : ∀ key, left.count key = right.count key) :
    left = right := by
  apply eq_of_table
  apply Std.ExtTreeMap.ext_getElem?
  intro key
  rw [getElem?_table, getElem?_table, same key]

theorem mem_entries {t : Tally κ} {key : κ} {n : Nat} :
    (key, n) ∈ t.entries ↔ t.count key = n ∧ 0 < n := by
  unfold entries
  rw [Std.ExtTreeMap.mem_toList_iff_getElem?_eq_some, getElem?_table]
  split
  next zero => simp [zero]; omega
  next nonzero => simp only [Option.some.injEq]; omega

def filter (t : Tally κ) (keep : κ → Bool) : Tally κ where
  table := t.table.filter fun key _ => keep key
  positive key := by
    rw [Std.ExtTreeMap.getElem?_filter']
    intro found
    exact t.positive key (Option.filter_eq_some_iff.mp found).1

@[simp] theorem mem_entries_filter {t : Tally κ} {keep : κ → Bool} {entry : κ × Nat} :
    entry ∈ (t.filter keep).entries ↔ entry ∈ t.entries ∧ keep entry.1 = true := by
  simp [filter, entries, Std.ExtTreeMap.toList_filter, List.mem_filter]

theorem count_filter (t : Tally κ) (keep : κ → Bool) (key : κ) :
    (t.filter keep).count key = if keep key then t.count key else 0 := by
  have kept (n : Nat) : (t.filter keep).count key = n ∧ 0 < n ↔
      (t.count key = n ∧ 0 < n) ∧ keep key = true := by
    simp only [← mem_entries, mem_entries_filter]
  have here := kept (t.count key)
  have there := kept ((t.filter keep).count key)
  split
  next pass => simp only [pass, and_true, true_and] at here there; omega
  next fail => simp [fail] at there; omega

def best (t : Tally κ) : Nat :=
  (t.entries.map (·.2)).foldl max 0

def leaders (t : Tally κ) : List κ :=
  let best := t.best
  t.entries.filterMap fun (key, n) => if n = best then some key else none

omit [Std.LawfulEqOrd κ] in
theorem ordered_leaders (t : Tally κ) : t.leaders.Pairwise fun x y => compare x y = .lt := by
  rw [leaders, List.pairwise_filterMap]
  refine Std.ExtTreeMap.ordered_keys_toList.imp ?_
  rintro ⟨key, n⟩ ⟨other, m⟩ before x first y second
  simp only [Option.ite_none_right_eq_some, Option.some.injEq] at first second
  rw [← first.2, ← second.2]
  exact before

theorem count_le_best (t : Tally κ) (key : κ) : t.count key ≤ t.best := by
  have grows (numbers : List Nat) (start : Nat) :
      start ≤ numbers.foldl max start ∧ ∀ n ∈ numbers, n ≤ numbers.foldl max start := by
    induction numbers generalizing start with
    | nil => simp
    | cons m rest ih =>
      obtain ⟨first, others⟩ := ih (max start m)
      simp only [List.foldl_cons, List.mem_cons]
      refine ⟨by omega, fun n member => ?_⟩
      rcases member with rfl | member
      · omega
      · exact others n member
  by_cases zero : t.count key = 0
  · omega
  · exact (grows _ 0).2 _ (List.mem_map_of_mem
      (mem_entries.mpr ⟨rfl, Nat.pos_of_ne_zero zero⟩))

theorem best_mem (t : Tally κ) : t.best = 0 ∨ ∃ key, t.count key = t.best := by
  have reached (numbers : List Nat) (start : Nat) :
      numbers.foldl max start = start ∨ numbers.foldl max start ∈ numbers := by
    induction numbers generalizing start with
    | nil => simp
    | cons m rest ih =>
      simp only [List.foldl_cons, List.mem_cons]
      rcases ih (max start m) with same | member
      · rw [same]
        omega
      · exact .inr (.inr member)
  rcases reached (t.entries.map (·.2)) 0 with zero | member
  · exact .inl zero
  · obtain ⟨⟨key, n⟩, member, same⟩ := List.mem_map.mp member
    exact .inr ⟨key, (mem_entries.mp member).1.trans same⟩

theorem mem_leaders {t : Tally κ} {key : κ} :
    key ∈ t.leaders ↔ 0 < t.count key ∧ ∀ other, t.count other ≤ t.count key := by
  have leads : key ∈ t.leaders ↔ t.count key = t.best ∧ 0 < t.best := by
    simp only [leaders, List.mem_filterMap]
    constructor
    · rintro ⟨⟨k, n⟩, member, found⟩
      dsimp only at found
      split at found
      next same =>
        cases found
        have := mem_entries.mp member
        omega
      next => simp at found
    · rintro ⟨same, positive⟩
      exact ⟨(key, t.best), mem_entries.mpr ⟨same, positive⟩, by simp⟩
  rw [leads]
  constructor
  · rintro ⟨same, positive⟩
    exact ⟨by omega, fun other => same ▸ t.count_le_best other⟩
  · rintro ⟨positive, most⟩
    have upper := t.count_le_best key
    rcases t.best_mem with zero | ⟨other, same⟩
    · omega
    · have := most other
      omega

end Tally

end Cohort
