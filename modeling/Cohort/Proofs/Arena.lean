import Cohort.Arena
import Mathlib.Data.List.Perm.Basic

/-! An arena whose free list holds exactly the vacant slots is a finite map from keys to values:
filling, changing and freeing a slot touch the value behind one key and no other. -/

namespace Cohort.Arena

variable {α : Type}

/-- The free list holds every vacant slot once, and the other slots are counted. -/
structure Sound (a : Arena α) : Prop where
  nodup : a.free.Nodup
  vacant : ∀ i, i ∈ a.free ↔ ∃ slot, a.slots[i]? = some slot ∧ slot.value = none
  balance : a.size + a.free.length = a.slots.size

theorem get?_eq_some {a : Arena α} {key : Key} {value : α} :
    a.get? key = some value ↔ a.slots[key.index]? = some ⟨key.generation, some value⟩ := by
  unfold get?
  cases hslot : a.slots[key.index]? with
  | none => simp
  | some slot =>
    obtain ⟨generation, content⟩ := slot
    by_cases hg : generation = key.generation <;> simp [hg]

theorem get?_eq_none_of_vacant {a : Arena α} {key : Key} {slot : Slot α}
    (hslot : a.slots[key.index]? = some slot) (hvalue : slot.value = none) :
    a.get? key = none := by
  simp [get?, hslot, hvalue]

theorem sound_empty : (∅ : Arena α).Sound where
  nodup := List.nodup_nil
  vacant i := by
    change i ∈ ([] : List Nat) ↔ ∃ slot, (#[] : Array (Slot α))[i]? = some slot ∧ _
    simp
  balance := rfl

section Insert

variable {a : Arena α}

theorem insert_of_nil (h : a.free = []) (value : α) :
    a.insert value = (⟨a.slots.size, 0⟩,
      { a with slots := a.slots.push ⟨0, some value⟩, size := a.size + 1 }) := by
  simp [insert, h]

theorem insert_of_cons {index : Nat} {rest : List Nat} (h : a.free = index :: rest)
    (value : α) :
    a.insert value = (⟨index, a.generation index⟩,
      { slots := a.store index value, free := rest, size := a.size + 1 }) := by
  simp [insert, h]

theorem Sound.get?_insert_fst (sound : a.Sound) (value : α) :
    a.get? (a.insert value).1 = none := by
  cases hfree : a.free with
  | nil => simp [insert_of_nil hfree, get?]
  | cons index rest =>
    obtain ⟨slot, hslot, hvalue⟩ := (sound.vacant index).mp (by simp [hfree])
    rw [insert_of_cons hfree]
    exact get?_eq_none_of_vacant hslot hvalue

theorem Sound.get?_insert (sound : a.Sound) (value : α) (key : Key) :
    (a.insert value).2.get? key =
      if key = (a.insert value).1 then some value else a.get? key := by
  obtain ⟨place, generation⟩ := key
  cases hfree : a.free with
  | nil =>
    simp only [insert_of_nil hfree, get?, Array.getElem?_push, Key.mk.injEq]
    by_cases hi : place = a.slots.size
    · by_cases hg : generation = 0 <;> simp [hi, hg, eq_comm]
    · simp [hi]
  | cons index rest =>
    obtain ⟨slot, hslot, hvalue⟩ := (sound.vacant index).mp (by simp [hfree])
    obtain ⟨hbound, -⟩ := Array.getElem?_eq_some_iff.mp hslot
    have hgeneration : a.generation index = slot.generation := by
      simp [Arena.generation, hslot]
    simp only [insert_of_cons hfree, get?, store, hgeneration, Key.mk.injEq,
      Array.getElem?_setIfInBounds]
    by_cases hi : index = place
    · subst hi
      simp only [if_true, hbound, hslot, hvalue, ite_self, true_and, eq_comm]
    · simp [hi, Ne.symm hi]

theorem Sound.insert (sound : a.Sound) (value : α) : (a.insert value).2.Sound := by
  have hbalance := sound.balance
  cases hfree : a.free with
  | nil =>
    rw [insert_of_nil hfree]
    refine ⟨sound.nodup, fun i => ?_, ?_⟩
    · rw [sound.vacant, Array.getElem?_push]
      by_cases hi : i = a.slots.size <;> simp [hi]
    · simp only [Array.size_push]
      omega
  | cons index rest =>
    have hnodup : (index :: rest).Nodup := hfree ▸ sound.nodup
    have hvacant : ∀ i, i ∈ index :: rest ↔ ∃ slot, a.slots[i]? = some slot ∧ slot.value = none :=
      fun i => hfree ▸ sound.vacant i
    obtain ⟨habsent, hrest⟩ := List.nodup_cons.mp hnodup
    rw [insert_of_cons hfree]
    refine ⟨hrest, fun i => ?_, ?_⟩
    · simp only [store, Array.getElem?_setIfInBounds]
      by_cases hi : index = i
      · subst hi
        by_cases hbound : index < a.slots.size <;> simp [habsent, hbound]
      · simp only [hi, if_false, ← hvacant i, List.mem_cons, Ne.symm hi, false_or]
    · simp only [hfree, List.length_cons] at hbalance
      simp only [store, Array.size_setIfInBounds]
      omega

end Insert

section Modify

variable {a : Arena α}

theorem get?_modify (key other : Key) (f : α → α) :
    (a.modify key f).get? other =
      if other = key then (a.get? key).map f else a.get? other := by
  by_cases hsame : other = key
  · rw [if_pos hsame, hsame, get?_modify_self]
  · rw [if_neg hsame]
    unfold modify get?
    simp only [Array.getElem?_modify]
    by_cases hi : key.index = other.index
    · have hg : key.generation ≠ other.generation := by
        intro hg
        cases key; cases other
        simp_all
      rw [if_pos hi]
      cases a.slots[other.index]? with
      | none => rfl
      | some slot =>
        simp only [Option.map_some, Slot.modify]
        by_cases hp : slot.generation = key.generation <;> simp [hp, hg]
    · rw [if_neg hi]

theorem Sound.modify (sound : a.Sound) (key : Key) (f : α → α) : (a.modify key f).Sound where
  nodup := sound.nodup
  vacant i := by
    have hvalue (slot : Slot α) : (slot.modify key.generation f).value = none ↔
        slot.value = none := by
      unfold Slot.modify
      by_cases hp : slot.generation = key.generation <;> simp [hp]
    change i ∈ a.free ↔ _
    rw [sound.vacant]
    unfold Arena.modify
    simp only [Array.getElem?_modify]
    by_cases hi : key.index = i
    · simp only [hi, if_true, Option.map_eq_some_iff]
      constructor
      · rintro ⟨slot, hslot, hnone⟩
        exact ⟨_, ⟨slot, hslot, rfl⟩, (hvalue slot).mpr hnone⟩
      · rintro ⟨_, ⟨slot, hslot, rfl⟩, hnone⟩
        exact ⟨slot, hslot, (hvalue slot).mp hnone⟩
    · simp only [hi, if_false]
  balance := by
    simpa [Arena.modify] using sound.balance

end Modify

section Remove

variable {a : Arena α}

theorem remove_of_get? {key : Key} {value : α} (h : a.get? key = some value) :
    a.remove key =
      { slots := a.slots.setIfInBounds key.index ⟨key.generation + 1, none⟩
        free := key.index :: a.free
        size := a.size - 1 } := by
  simp [remove, h]

theorem get?_remove (key other : Key) :
    (a.remove key).get? other = if other = key then none else a.get? other := by
  by_cases hsame : other = key
  · rw [if_pos hsame, hsame, get?_remove_self]
  · rw [if_neg hsame]
    cases h : a.get? key with
    | none => rw [remove_of_get?_eq_none h]
    | some value =>
      have hslot := get?_eq_some.mp h
      obtain ⟨hbound, -⟩ := Array.getElem?_eq_some_iff.mp hslot
      rw [remove_of_get? h]
      unfold get?
      by_cases hi : key.index = other.index
      · have hg : key.generation ≠ other.generation := by
          intro hg
          cases key; cases other
          simp_all
        rw [hi] at hslot hbound
        simp only [Array.getElem?_setIfInBounds, hi, if_true, hbound, hslot, hg, if_false]
        split <;> rfl
      · simp [hi]

theorem Sound.live (sound : a.Sound) {key : Key} {value : α} (h : a.get? key = some value) :
    0 < a.size ∧ key.index ∉ a.free := by
  have hslot := get?_eq_some.mp h
  obtain ⟨hbound, -⟩ := Array.getElem?_eq_some_iff.mp hslot
  have habsent : key.index ∉ a.free := by
    intro hmem
    obtain ⟨slot, hsome, hnone⟩ := (sound.vacant _).mp hmem
    rw [hslot] at hsome
    cases hsome
    cases hnone
  refine ⟨?_, habsent⟩
  have hnodup : (key.index :: a.free).Nodup := List.nodup_cons.mpr ⟨habsent, sound.nodup⟩
  have hsubset : key.index :: a.free ⊆ List.range a.slots.size := by
    intro i hi
    rw [List.mem_range]
    rcases List.mem_cons.mp hi with rfl | hi
    · exact hbound
    · obtain ⟨slot, hsome, -⟩ := (sound.vacant i).mp hi
      exact (Array.getElem?_eq_some_iff.mp hsome).1
  have hlength := (List.subperm_of_subset hnodup hsubset).length_le
  have hbalance := sound.balance
  simp only [List.length_cons, List.length_range] at hlength
  omega

theorem Sound.remove (sound : a.Sound) (key : Key) : (a.remove key).Sound := by
  cases h : a.get? key with
  | none => rwa [remove_of_get?_eq_none h]
  | some value =>
    obtain ⟨hpositive, habsent⟩ := sound.live h
    have hslot := get?_eq_some.mp h
    obtain ⟨hbound, -⟩ := Array.getElem?_eq_some_iff.mp hslot
    rw [remove_of_get? h]
    refine ⟨List.nodup_cons.mpr ⟨habsent, sound.nodup⟩, fun i => ?_, ?_⟩
    · simp only [List.mem_cons, Array.getElem?_setIfInBounds, sound.vacant]
      by_cases hi : key.index = i
      · simp [hi, hi ▸ hbound]
      · simp [hi, Ne.symm hi]
    · have hbalance := sound.balance
      simp only [List.length_cons, Array.size_setIfInBounds]
      omega

end Remove

section Generation

variable {a : Arena α}

theorem generation_of_get? {key : Key} {value : α} (h : a.get? key = some value) :
    a.generation key.index = key.generation := by
  simp [generation, get?_eq_some.mp h]

theorem get?_eq_none_of_generation {key : Key} (h : a.generation key.index ≠ key.generation) :
    a.get? key = none := by
  by_contra hlive
  obtain ⟨value, hvalue⟩ := Option.ne_none_iff_exists'.mp hlive
  exact h (generation_of_get? hvalue)

theorem generation_insert_fst (value : α) :
    a.generation (a.insert value).1.index = (a.insert value).1.generation := by
  cases hfree : a.free with
  | nil => simp [insert_of_nil hfree, generation]
  | cons index rest => rw [insert_of_cons hfree]

@[simp] theorem generation_insert (value : α) (index : Nat) :
    (a.insert value).2.generation index = a.generation index := by
  unfold generation
  cases hfree : a.free with
  | nil =>
    rw [insert_of_nil hfree, Array.getElem?_push]
    by_cases hindex : index = a.slots.size <;> simp [hindex]
  | cons place rest =>
    simp only [insert_of_cons hfree, store, Array.getElem?_setIfInBounds]
    by_cases hplace : place = index
    · by_cases hbound : index < a.slots.size <;> simp [hplace, hbound, generation]
    · simp [hplace]

@[simp] theorem generation_modify (key : Key) (f : α → α) (index : Nat) :
    (a.modify key f).generation index = a.generation index := by
  unfold modify generation
  simp only [Array.getElem?_modify]
  by_cases hindex : key.index = index
  · cases a.slots[index]? with
    | none => simp
    | some slot =>
      simp only [hindex, if_true, Option.map_some, Slot.modify]
      split <;> rfl
  · simp [hindex]

theorem generation_remove {key : Key} {value : α} (h : a.get? key = some value) (index : Nat) :
    (a.remove key).generation index =
      a.generation index + if key.index = index then 1 else 0 := by
  have hslot := get?_eq_some.mp h
  obtain ⟨hbound, -⟩ := Array.getElem?_eq_some_iff.mp hslot
  rw [remove_of_get? h]
  split
  next hindex =>
    subst hindex
    rw [generation_of_get? h]
    simp [generation, hbound]
  next hindex => simp [generation, hindex]

end Generation

theorem Sound.size_eq_zero {a : Arena α} (sound : a.Sound) (h : ∀ key, a.get? key = none) :
    a.size = 0 := by
  have hsubset : List.range a.slots.size ⊆ a.free := by
    intro i hi
    rw [List.mem_range] at hi
    refine (sound.vacant i).mpr ⟨a.slots[i], Array.getElem?_eq_getElem hi, ?_⟩
    have hkey := h ⟨i, a.slots[i].generation⟩
    simpa [get?, Array.getElem?_eq_getElem hi] using hkey
  have hlength := (List.subperm_of_subset List.nodup_range hsubset).length_le
  have hbalance := sound.balance
  simp only [List.length_range] at hlength
  omega

section Occupied

def occupied (a : Arena α) : Nat :=
  a.slots.toList.countP (·.value.isSome)

def keys (a : Arena α) : List Key :=
  a.slots.toList.zipIdx.filterMap fun (slot, index) =>
    slot.value.map fun _ => ⟨index, slot.generation⟩

def vacancies (a : Arena α) : List Nat :=
  a.slots.toList.zipIdx.filterMap fun (slot, index) =>
    if slot.value.isSome then none else some index

theorem mem_vacancies {a : Arena α} {i : Nat} :
    i ∈ a.vacancies ↔ ∃ slot, a.slots[i]? = some slot ∧ slot.value = none := by
  simp only [vacancies, List.mem_filterMap, List.mem_zipIdx_iff_getElem?, Prod.exists,
    Array.getElem?_toList]
  constructor
  · rintro ⟨slot, index, hslot, hvacant⟩
    cases hvalue : slot.value with
    | none =>
      obtain rfl : index = i := by simpa [hvalue] using hvacant
      exact ⟨slot, hslot, hvalue⟩
    | some value => simp [hvalue] at hvacant
  · rintro ⟨slot, hslot, hvalue⟩
    exact ⟨slot, i, hslot, by simp [hvalue]⟩

theorem nodup_indices (a : Arena α) : (a.slots.toList.zipIdx.map (·.2)).Nodup := by
  rw [List.zipIdx_map_snd]
  exact List.nodup_range'

theorem nodup_vacancies (a : Arena α) : a.vacancies.Nodup := by
  rw [vacancies, List.Nodup, List.pairwise_filterMap]
  refine (List.pairwise_map.mp a.nodup_indices).imp ?_
  rintro ⟨slot, i⟩ ⟨slot', j⟩ hne _ hi _ hj rfl
  simp only [Option.ite_none_left_eq_some, Option.some.injEq] at hi hj
  exact hne (hi.2.trans hj.2.symm)

theorem length_vacancies (a : Arena α) : a.occupied + a.vacancies.length = a.slots.size := by
  have hvacant : a.vacancies.length = a.slots.toList.countP fun slot => ¬ slot.value.isSome := by
    rw [vacancies, List.length_filterMap_eq_countP]
    conv_rhs => rw [← List.zipIdx_map_fst 0 a.slots.toList, List.countP_map]
    apply List.countP_congr
    rintro ⟨slot, index⟩ -
    cases slot.value <;> simp
  rw [occupied, hvacant, ← Array.length_toList]
  exact (List.length_eq_countP_add_countP _).symm

theorem Sound.free_perm {a : Arena α} (sound : a.Sound) : a.free.Perm a.vacancies := by
  rw [List.perm_ext_iff_of_nodup sound.nodup a.nodup_vacancies]
  intro i
  rw [sound.vacant, mem_vacancies]

theorem Sound.size_eq {a : Arena α} (sound : a.Sound) : a.size = a.occupied := by
  have hfree := sound.free_perm.length_eq
  have hbalance := sound.balance
  have hslots := a.length_vacancies
  omega

theorem mem_keys {a : Arena α} {key : Key} : key ∈ a.keys ↔ ∃ value, a.get? key = some value := by
  simp only [keys, List.mem_filterMap, List.mem_zipIdx_iff_getElem?, Prod.exists,
    Array.getElem?_toList, get?_eq_some, Option.map_eq_some_iff]
  constructor
  · rintro ⟨slot, index, hslot, value, hvalue, rfl⟩
    exact ⟨value, by rw [hslot, ← hvalue]⟩
  · rintro ⟨value, hslot⟩
    exact ⟨_, key.index, hslot, value, rfl, rfl⟩

theorem nodup_keys (a : Arena α) : a.keys.Nodup := by
  rw [keys, List.Nodup, List.pairwise_filterMap]
  refine (List.pairwise_map.mp a.nodup_indices).imp ?_
  rintro ⟨slot, i⟩ ⟨slot', j⟩ hne key hi key' hj rfl
  obtain ⟨_, -, rfl⟩ := Option.map_eq_some_iff.mp hi
  obtain ⟨_, -, heq⟩ := Option.map_eq_some_iff.mp hj
  exact hne (congrArg Key.index heq).symm

theorem values_eq (a : Arena α) : a.values = a.keys.filterMap a.get? := by
  rw [keys, List.filterMap_filterMap, values]
  conv_lhs => rw [← List.zipIdx_map_fst 0 a.slots.toList, List.filterMap_map]
  apply List.filterMap_congr
  rintro ⟨slot, index⟩ hmem
  have hslot : a.slots[index]? = some slot := by
    simpa [List.mem_zipIdx_iff_getElem?] using hmem
  cases hvalue : slot.value with
  | none => simp [hvalue]
  | some value => simp [hvalue, get?, hslot]

theorem length_keys (a : Arena α) : a.keys.length = a.occupied := by
  rw [keys, List.length_filterMap_eq_countP, occupied]
  conv_rhs => rw [← List.zipIdx_map_fst 0 a.slots.toList, List.countP_map]
  apply List.countP_congr
  rintro ⟨slot, index⟩ -
  simp

theorem length_values (a : Arena α) : a.values.length = a.occupied := by
  rw [values, List.length_filterMap_eq_countP, occupied]

theorem Sound.size_remove {a : Arena α} (sound : a.Sound) {key : Key} {value : α}
    (h : a.get? key = some value) : (a.remove key).size + 1 = a.size := by
  have hpositive : 0 < a.size := by
    rw [sound.size_eq, ← length_keys]
    exact List.length_pos_of_mem (mem_keys.mpr ⟨value, h⟩)
  rw [remove_of_get? h]
  exact Nat.sub_add_cancel hpositive

theorem size_modify (a : Arena α) (key : Key) (f : α → α) : (a.modify key f).size = a.size :=
  rfl

/-- The size is the number of occupied slots, and the free list names every vacant slot once. -/
structure Accounted (a : Arena α) : Prop where
  size_eq : a.size = a.occupied
  nodup : a.free.Nodup
  vacant : ∀ i, i ∈ a.free ↔ ∃ slot, a.slots[i]? = some slot ∧ slot.value = none

theorem Sound.accounted {a : Arena α} (sound : a.Sound) : a.Accounted :=
  ⟨sound.size_eq, sound.nodup, sound.vacant⟩

end Occupied

end Cohort.Arena
