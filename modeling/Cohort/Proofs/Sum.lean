import Cohort.Sum
import Mathlib.Algebra.BigOperators.Group.Finset.Basic
import Mathlib.Data.List.ProdSigma

/-! Sums over lists without repetitions, as sums over finite sets, and sums over pairs. -/

namespace Cohort

variable {α : Type} [DecidableEq α]

theorem addUp_map_eq_sum {items : List α} (hnodup : items.Nodup) (f : α → Nat) :
    addUp (items.map f) = ∑ a ∈ items.toFinset, f a := by
  induction items with
  | nil => rfl
  | cons a rest ih =>
    obtain ⟨hnew, hrest⟩ := List.nodup_cons.mp hnodup
    rw [List.map_cons, addUp_cons, ih hrest, List.toFinset_cons,
      Finset.sum_insert (mt List.mem_toFinset.mp hnew)]

theorem addUp_map_eq_of_subset {few many : List α} (hfew : few.Nodup) (hmany : many.Nodup)
    (hsubset : few ⊆ many) {f : α → Nat} (hzero : ∀ a ∈ many, a ∉ few → f a = 0) :
    addUp (few.map f) = addUp (many.map f) := by
  rw [addUp_map_eq_sum hfew, addUp_map_eq_sum hmany]
  apply Finset.sum_subset
  · intro a ha
    exact List.mem_toFinset.mpr (hsubset (List.mem_toFinset.mp ha))
  · intro a ha habsent
    exact hzero a (List.mem_toFinset.mp ha) (mt List.mem_toFinset.mpr habsent)

theorem addUp_map_others {items : List α} (hnodup : items.Nodup) {a : α}
    (ha : a ∈ items) (n : Nat) :
    addUp (items.map fun b => if b = a then 0 else n) = (items.length - 1) * n := by
  have hall : addUp (items.map fun b => (if b = a then n else 0) + if b = a then 0 else n) =
      items.length * n := by
    rw [← addUp_replicate, ← List.map_const']
    congr 1
    refine List.map_congr_left fun b _ => ?_
    split
    next => exact Nat.add_zero n
    next => exact Nat.zero_add n
  rw [addUp_map_add, addUp_map_ite_eq, List.count_eq_one_of_mem hnodup ha, Nat.one_mul] at hall
  rw [Nat.sub_mul, Nat.one_mul, ← hall, Nat.add_sub_cancel_left]

omit [DecidableEq α] in
theorem addUp_map_product {β : Type} (rows : List α) (columns : List β) (f : α × β → Nat) :
    addUp ((rows ×ˢ columns).map f) =
      addUp (rows.map fun a => addUp (columns.map fun b => f (a, b))) := by
  induction rows with
  | nil => rfl
  | cons a rest ih =>
    rw [List.product_cons, List.map_append, addUp_append, ih, List.map_map]
    rfl

end Cohort
