/-!
Sums of lists of numbers.
-/

namespace Cohort

def addUp : List Nat → Nat
  | [] => 0
  | n :: rest => n + addUp rest

@[simp] theorem addUp_nil : addUp [] = 0 :=
  rfl

@[simp] theorem addUp_cons (n : Nat) (rest : List Nat) : addUp (n :: rest) = n + addUp rest :=
  rfl

@[simp] theorem addUp_append (left right : List Nat) :
    addUp (left ++ right) = addUp left + addUp right := by
  induction left with
  | nil => simp
  | cons n rest ih => simp [ih, Nat.add_assoc]

theorem addUp_perm {left right : List Nat} (perm : left.Perm right) :
    addUp left = addUp right := by
  induction perm with
  | nil => rfl
  | cons n _ ih => simp [ih]
  | swap n m _ => simp only [addUp_cons]; omega
  | trans _ _ first second => exact first.trans second

theorem le_addUp {n : Nat} {numbers : List Nat} (member : n ∈ numbers) : n ≤ addUp numbers := by
  induction numbers with
  | nil => simp at member
  | cons m rest ih =>
    rcases List.mem_cons.mp member with rfl | member
    · simp
    · have := ih member
      simp only [addUp_cons]
      omega

theorem length_le_addUp {numbers : List Nat} (positive : ∀ n ∈ numbers, 0 < n) :
    numbers.length ≤ addUp numbers := by
  induction numbers with
  | nil => exact Nat.le_refl 0
  | cons m rest ih =>
    have first := positive m List.mem_cons_self
    have others := ih fun n member => positive n (List.mem_cons_of_mem m member)
    rw [List.length_cons, addUp_cons]
    omega

theorem addUp_eq_zero {numbers : List Nat} (zero : ∀ n ∈ numbers, n = 0) : addUp numbers = 0 := by
  induction numbers with
  | nil => rfl
  | cons m rest ih =>
    have others : ∀ n ∈ rest, n = 0 := fun n member => zero n (List.mem_cons_of_mem m member)
    rw [addUp_cons, zero m List.mem_cons_self, ih others]

theorem addUp_replicate (n m : Nat) : addUp (List.replicate n m) = n * m := by
  induction n with
  | zero => simp
  | succ n ih => rw [List.replicate_succ, addUp_cons, ih, Nat.succ_mul, Nat.add_comm]

theorem addUp_map_add {α : Type} (items : List α) (f g : α → Nat) :
    addUp (items.map fun a => f a + g a) = addUp (items.map f) + addUp (items.map g) := by
  induction items with
  | nil => rfl
  | cons a rest ih => simp only [List.map_cons, addUp_cons, ih]; omega

theorem addUp_map_mul {α : Type} (k : Nat) (items : List α) (f : α → Nat) :
    addUp (items.map fun a => k * f a) = k * addUp (items.map f) := by
  induction items with
  | nil => rfl
  | cons a rest ih => simp only [List.map_cons, addUp_cons, ih, Nat.mul_add]

theorem addUp_map_ite_eq {α : Type} [DecidableEq α] (items : List α) (a : α) (n : Nat) :
    addUp (items.map fun b => if b = a then n else 0) = items.count a * n := by
  induction items with
  | nil => simp
  | cons b rest ih =>
    rw [List.map_cons, addUp_cons, ih, List.count_cons, Nat.add_mul, Nat.add_comm]
    split <;> simp_all

theorem addUp_map_eq_zero {α : Type} {items : List α} {f : α → Nat} :
    addUp (items.map f) = 0 ↔ ∀ a ∈ items, f a = 0 := by
  constructor
  · intro zero a member
    exact Nat.le_zero.mp (zero ▸ le_addUp (List.mem_map_of_mem member))
  · intro zero
    apply addUp_eq_zero
    simpa using zero

theorem addUp_map_le {α : Type} {items : List α} {f g : α → Nat}
    (le : ∀ a ∈ items, f a ≤ g a) : addUp (items.map f) ≤ addUp (items.map g) := by
  induction items with
  | nil => exact Nat.le_refl 0
  | cons a rest ih =>
    exact Nat.add_le_add (le a List.mem_cons_self)
      (ih fun b member => le b (List.mem_cons_of_mem a member))

theorem addUp_filter {α : Type} (items : List α) (keep : α → Bool) (f : α → Nat) :
    addUp ((items.filter keep).map f) = addUp (items.map fun a => if keep a then f a else 0) := by
  induction items with
  | nil => rfl
  | cons a rest ih =>
    rw [List.filter_cons, List.map_cons, addUp_cons]
    split
    next => rw [List.map_cons, addUp_cons, ih]
    next => rw [ih, Nat.zero_add]

theorem addUp_filterMap_le {α β : Type} {pick : α → Option β} {weight : β → Nat} {bound : α → Nat}
    (h : ∀ a b, pick a = some b → weight b ≤ bound a) (items : List α) :
    addUp ((items.filterMap pick).map weight) ≤ addUp (items.map bound) := by
  induction items with
  | nil => exact Nat.le_refl 0
  | cons a rest ih =>
    rw [List.filterMap_cons, List.map_cons, addUp_cons]
    cases hpick : pick a with
    | none => exact Nat.le_add_left_of_le ih
    | some b => exact Nat.add_le_add (h a b hpick) ih

theorem addUp_comm {α β : Type} (rows : List α) (columns : List β) (f : α → β → Nat) :
    addUp (rows.map fun a => addUp (columns.map (f a))) =
      addUp (columns.map fun b => addUp (rows.map (f · b))) := by
  induction rows with
  | nil => exact (addUp_eq_zero (by simp)).symm
  | cons a rest ih => simp only [List.map_cons, addUp_cons, ih, addUp_map_add]

end Cohort
