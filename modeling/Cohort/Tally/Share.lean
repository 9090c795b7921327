import Cohort.Tally

/-!
Counting a whole list: what it counts for each key, in whatever order it stands.
-/

namespace Cohort.Tally

variable {κ : Type} [Ord κ]

def share (key : κ) (entries : List (κ × Nat)) : Nat :=
  addUp (entries.map fun entry => if compare entry.1 key = .eq then entry.2 else 0)

@[simp] theorem share_nil (key : κ) : share key [] = 0 :=
  rfl

@[simp] theorem share_cons (key : κ) (entry : κ × Nat) (rest : List (κ × Nat)) :
    share key (entry :: rest) =
      (if compare entry.1 key = .eq then entry.2 else 0) + share key rest := by
  simp [share]

@[simp] theorem share_append (key : κ) (left right : List (κ × Nat)) :
    share key (left ++ right) = share key left + share key right := by
  simp [share]

theorem share_perm {key : κ} {left right : List (κ × Nat)} (perm : left.Perm right) :
    share key left = share key right :=
  addUp_perm (perm.map _)

theorem share_flatMap {α : Type} (key : κ) (items : List α) (entries : α → List (κ × Nat)) :
    share key (items.flatMap entries) = addUp (items.map fun item => share key (entries item)) := by
  induction items with
  | nil => rfl
  | cons item rest ih => rw [List.flatMap_cons, share_append, ih, List.map_cons, addUp_cons]

theorem share_eq_zero [Std.LawfulEqOrd κ] {key : κ} {entries : List (κ × Nat)}
    (absent : key ∉ entries.map (·.1)) : share key entries = 0 := by
  apply addUp_eq_zero
  intro n member
  obtain ⟨entry, there, rfl⟩ := List.mem_map.mp member
  refine if_neg fun same => absent ?_
  rw [← Std.LawfulEqCmp.eq_of_compare same]
  exact List.mem_map_of_mem there

theorem mem_keys_of_share_pos [Std.LawfulEqOrd κ] {key : κ} {entries : List (κ × Nat)}
    (positive : 0 < share key entries) : key ∈ entries.map (·.1) :=
  Classical.byContradiction fun absent => Nat.ne_of_gt positive (share_eq_zero absent)

theorem share_of_mem [Std.LawfulEqOrd κ] {key : κ} {n : Nat} {entries : List (κ × Nat)}
    (distinct : (entries.map (·.1)).Nodup) (member : (key, n) ∈ entries) :
    share key entries = n := by
  induction entries with
  | nil => cases member
  | cons entry rest ih =>
    obtain ⟨apart, others⟩ := List.nodup_cons.mp distinct
    rw [share_cons]
    rcases List.mem_cons.mp member with rfl | member
    · rw [if_pos Std.ReflCmp.compare_self, share_eq_zero apart]
      rfl
    · have listed : (key, n).1 ∈ rest.map (·.1) := List.mem_map_of_mem member
      have different : ¬ compare entry.1 key = .eq := by
        intro same
        obtain rfl := Std.LawfulEqCmp.eq_of_compare same
        exact apart listed
      rw [if_neg different, ih others member, Nat.zero_add]

variable [Std.TransOrd κ] [Std.LawfulEqOrd κ]

def addAll (t : Tally κ) (counts : List (κ × Nat)) : Tally κ :=
  counts.foldl (fun t entry => t.add entry.1 entry.2) t

@[simp] theorem count_addAll (t : Tally κ) (counts : List (κ × Nat)) (key : κ) :
    (t.addAll counts).count key = t.count key + share key counts := by
  unfold addAll
  induction counts generalizing t with
  | nil => simp
  | cons entry rest ih =>
    rw [List.foldl_cons, ih, count_add, share_cons]
    split
    next same => rw [Std.LawfulEqCmp.eq_of_compare same, Nat.add_assoc]
    next => rw [Nat.zero_add]

def ofList (counts : List (κ × Nat)) : Tally κ :=
  (∅ : Tally κ).addAll counts

@[simp] theorem count_ofList (counts : List (κ × Nat)) (key : κ) :
    (ofList counts).count key = share key counts := by
  simp [ofList]

theorem nodup_keys (t : Tally κ) : (t.entries.map (·.1)).Nodup := by
  rw [List.Nodup, List.pairwise_map]
  exact Std.ExtTreeMap.distinct_keys_toList.imp fun apart same => apart (by
    rw [same]
    exact Std.ReflCmp.compare_self)

theorem share_entries (t : Tally κ) (key : κ) : share key t.entries = t.count key := by
  by_cases zero : t.count key = 0
  · rw [zero]
    apply share_eq_zero
    intro member
    obtain ⟨⟨other, n⟩, there, rfl⟩ := List.mem_map.mp member
    have counted : t.count other = n ∧ 0 < n := mem_entries.mp there
    exact Nat.ne_of_gt counted.2 (counted.1.symm.trans zero)
  · exact share_of_mem t.nodup_keys (mem_entries.mpr ⟨rfl, Nat.pos_of_ne_zero zero⟩)

end Cohort.Tally
