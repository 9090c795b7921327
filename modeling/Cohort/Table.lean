import Std.Data.ExtTreeMap
import Std.Data.ExtTreeSet

/-!
Finite maps in ascending key order.

Two tables with the same lookups are equal, so a table is a value and not a history.
-/

namespace Cohort

variable {κ ν α β : Type}

/-- Pairs are ordered by their first component, then by their second. -/
instance pairOrd [Ord α] [Ord β] : Ord (α × β) where
  compare x y := (compare x.1 y.1).then (compare x.2 y.2)

theorem compare_pair [Ord α] [Ord β] (x y : α × β) :
    compare x y = (compare x.1 y.1).then (compare x.2 y.2) :=
  rfl

instance pairTransOrd [Ord α] [Ord β] [Std.TransOrd α] [Std.TransOrd β] :
    Std.TransOrd (α × β) :=
  inferInstanceAs (Std.TransCmp
    (compareLex (compareOn Prod.fst) (compareOn Prod.snd) : α × β → α × β → Ordering))

instance pairLawfulEqOrd [Ord α] [Ord β] [Std.LawfulEqOrd α] [Std.LawfulEqOrd β] :
    Std.LawfulEqOrd (α × β) where
  compare_self := by simp [compare_pair]
  eq_of_compare {x y} same := by
    simp only [compare_pair, Ordering.then_eq_eq, Std.compare_eq_iff_eq] at same
    exact Prod.ext same.1 same.2

theorem nodup_toList [Ord κ] [Std.TransOrd κ] (set : Std.ExtTreeSet κ) : set.toList.Nodup :=
  Std.ExtTreeSet.distinct_toList.imp fun apart same => apart (by
    rw [same]
    exact Std.ReflCmp.compare_self)

abbrev Table (κ ν : Type) [Ord κ] :=
  Std.ExtTreeMap κ ν compare

variable [Ord κ] [Std.TransOrd κ] [Std.LawfulEqOrd κ]

/-- A table made from entries with distinct keys holds these entries. -/
theorem getElem?_ofList_eq_some [DecidableEq κ] {entries : List (κ × ν)}
    (distinct : (entries.map (·.1)).Nodup) {key : κ} {value : ν} :
    (Std.ExtTreeMap.ofList entries : Table κ ν)[key]? = some value ↔ (key, value) ∈ entries := by
  have apart : entries.Pairwise fun x y => ¬ compare x.1 y.1 = .eq :=
    (List.pairwise_map.mp distinct).imp fun different => mt Std.LawfulEqCmp.eq_of_compare different
  constructor
  · intro found
    by_cases listed : (entries.map (·.1)).contains key
    · obtain ⟨⟨_, own⟩, member, rfl⟩ := List.mem_map.mp (List.contains_iff_mem.mp listed)
      rw [Std.ExtTreeMap.getElem?_ofList_of_mem Std.ReflCmp.compare_self apart member] at found
      cases found
      exact member
    · rw [Std.ExtTreeMap.getElem?_ofList_of_contains_eq_false (by simpa using listed)] at found
      cases found
  · intro member
    exact Std.ExtTreeMap.getElem?_ofList_of_mem Std.ReflCmp.compare_self apart member

theorem keys_congr {left right : Table κ ν} (same : ∀ key, key ∈ left ↔ key ∈ right) :
    left.keys = right.keys := by
  have units : (left.map fun _ _ => ()) = right.map fun _ _ => () := by
    apply Std.ExtTreeMap.ext_getElem?
    intro key
    have here := same key
    rw [Std.ExtTreeMap.mem_iff_isSome_getElem?, Std.ExtTreeMap.mem_iff_isSome_getElem?] at here
    rw [Std.ExtTreeMap.getElem?_map, Std.ExtTreeMap.getElem?_map]
    cases onLeft : left[key]? <;> cases onRight : right[key]? <;> simp [onLeft, onRight] at here ⊢
  rw [← Std.ExtTreeMap.keys_map (f := fun _ _ => ()), units, Std.ExtTreeMap.keys_map]

end Cohort
