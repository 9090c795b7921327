import Cohort.Proofs.Arena
import Mathlib.Data.List.Chain

/-! Arenas in the course of time. As slots are filled and freed one after another, an arena has as
many of them as it ever held values at once, and a value that finds vacant slots goes to the one
that was freed last. -/

namespace Cohort.Arena

variable {α : Type}

def Vacant (a : Arena α) (index : Nat) : Prop :=
  ∃ slot, a.slots[index]? = some slot ∧ slot.value = none

def Holds (a : Arena α) (index : Nat) : Prop :=
  ∃ slot, a.slots[index]? = some slot ∧ slot.value ≠ none

inductive Step (a : Arena α) : Arena α → Prop where
  | rest : a.Step a
  | insert (value : α) : a.Step (a.insert value).2
  | modify (key : Key) (f : α → α) : a.Step (a.modify key f)
  | remove (key : Key) : a.Step (a.remove key)

inductive Course : List (Arena α) → Arena α → Prop where
  | start : Course [] ∅
  | step {past : List (Arena α)} {a b : Arena α} :
      Course past a → a.Step b → Course (past ++ [a]) b

/-- Of two slots, the first still held a value at a moment from which on the other was vacant. -/
def FreedLater (moments : List (Arena α)) (index other : Nat) : Prop :=
  ∃ before moment since, moments = before ++ moment :: since ∧ moment.Holds index ∧
    ∀ a ∈ moment :: since, a.Vacant other

structure FreedLast (moments : List (Arena α)) (a : Arena α) (index : Nat) : Prop where
  vacant : a.Vacant index
  later : ∀ other, a.Vacant other → other ≠ index → FreedLater moments index other

/-- An arena, the last of these moments, that has no more slots than it once needed at the same
time. -/
structure Thrifty (moments : List (Arena α)) (a : Arena α) : Prop where
  counted : a.size = a.occupied
  peak : (moments.map occupied).max? = some a.slots.size
  reuse : ∀ value index, a.Vacant index →
    (a.insert value).2.slots.size = a.slots.size ∧ FreedLast moments a (a.insert value).1.index
  stale : ∀ key, a.get? key = none → (a.remove key).slots = a.slots ∧ (a.remove key).free = a.free

section Step

variable {a b : Arena α}

theorem Step.sound (step : a.Step b) (sound : a.Sound) : b.Sound := by
  cases step with
  | rest => exact sound
  | insert value => exact sound.insert value
  | modify key f => exact sound.modify key f
  | remove key => exact sound.remove key

/-- No slot is ever given up, and a new one is made only when none is vacant. -/
theorem Step.slots_size (step : a.Step b) :
    b.slots.size = a.slots.size ∨ b.slots.size = a.slots.size + 1 ∧ b.free = [] := by
  cases step with
  | rest => exact .inl rfl
  | insert value =>
    cases hfree : a.free with
    | nil => simp [insert_of_nil hfree, hfree]
    | cons index rest => simp [insert_of_cons hfree, store]
  | modify key f => simp [Arena.modify]
  | remove key =>
    cases hget : a.get? key with
    | none => simp [remove_of_get?_eq_none hget]
    | some value => simp [remove_of_get? hget]

theorem Step.free (step : a.Step b) :
    b.free.Sublist a.free ∨ ∃ index, a.Holds index ∧ b.free = index :: a.free := by
  cases step with
  | rest => exact .inl (.refl _)
  | insert value =>
    left
    cases hfree : a.free with
    | nil => simp [insert_of_nil hfree, hfree]
    | cons index rest => simp [insert_of_cons hfree]
  | modify key f => exact .inl (.refl _)
  | remove key =>
    cases hget : a.get? key with
    | none =>
      rw [remove_of_get?_eq_none hget]
      exact .inl (.refl _)
    | some value =>
      refine .inr ⟨key.index, ⟨_, get?_eq_some.mp hget, by simp⟩, ?_⟩
      rw [remove_of_get? hget]

end Step

section Course

variable {moments past : List (Arena α)} {a b : Arena α}

theorem FreedLater.concat {index other : Nat} (h : FreedLater moments index other)
    (hvacant : b.Vacant other) : FreedLater (moments ++ [b]) index other := by
  obtain ⟨before, moment, since, rfl, hholds, hsince⟩ := h
  refine ⟨before, moment, since ++ [b], by simp, hholds, fun c hc => ?_⟩
  rw [← List.cons_append, List.mem_append, List.mem_singleton] at hc
  rcases hc with hc | rfl
  · exact hsince c hc
  · exact hvacant

theorem Course.sound (course : Course past a) : a.Sound := by
  induction course with
  | start => exact sound_empty
  | step _ step ih => exact step.sound ih

theorem Sound.occupied_add_length (sound : a.Sound) : a.occupied + a.free.length = a.slots.size :=
  sound.size_eq ▸ sound.balance

theorem Course.peak (course : Course past a) :
    ((past ++ [a]).map occupied).max? = some a.slots.size := by
  induction course with
  | start => rfl
  | @step past a b course step ih =>
    have hbalance := (step.sound course.sound).occupied_add_length
    have hgrown : a.slots.size ≤ b.slots.size := by
      rcases step.slots_size with hsize | ⟨hsize, -⟩ <;> omega
    simp only [List.max?_eq_some_iff, List.map_append, List.mem_append] at ih ⊢
    obtain ⟨hattained, hbound⟩ := ih
    constructor
    · rcases step.slots_size with hsize | ⟨-, hfree⟩
      · exact .inl (hsize ▸ hattained)
      · -- a slot is added when none is vacant, so that now all of them are in use
        exact .inr (by simpa [hfree] using hbalance.symm)
    · rintro n (hn | hn)
      · exact (hbound n hn).trans hgrown
      · obtain rfl : n = b.occupied := by simpa using hn
        omega

/-- The free list names the vacant slots in the order in which they were freed, the last first. -/
theorem Course.order (course : Course past a) :
    a.free.Pairwise (FreedLater (past ++ [a])) := by
  induction course with
  | start => exact .nil
  | @step past a b course step ih =>
    have hvacant : ∀ index ∈ b.free, b.Vacant index :=
      fun index => ((step.sound course.sound).vacant index).mp
    rcases step.free with hsub | ⟨index, hholds, hfree⟩
    · exact (ih.sublist hsub).imp_of_mem fun _ hother h => h.concat (hvacant _ hother)
    · rw [hfree] at hvacant ⊢
      refine List.pairwise_cons.mpr ⟨fun other hother => ?_, ih.imp_of_mem fun _ hother h =>
        h.concat (hvacant _ (List.mem_cons_of_mem _ hother))⟩
      -- up to now the slot held its value, and all that is vacant was vacant already
      refine ⟨past, a, [b], by simp, hholds, fun c hc => ?_⟩
      rcases List.mem_pair.mp hc with rfl | rfl
      · exact (course.sound.vacant other).mp hother
      · exact hvacant other (List.mem_cons_of_mem _ hother)

theorem Course.freedLast (course : Course past a) {value : α} {index : Nat}
    (h : a.Vacant index) : (a.insert value).2.slots.size = a.slots.size ∧
      FreedLast (past ++ [a]) a (a.insert value).1.index := by
  have hmem : index ∈ a.free := (course.sound.vacant index).mpr h
  have horder := course.order
  cases hfree : a.free with
  | nil => simp [hfree] at hmem
  | cons first rest =>
    rw [hfree, List.pairwise_cons] at horder
    rw [insert_of_cons hfree]
    refine ⟨by simp [store], (course.sound.vacant first).mp (by simp [hfree]), ?_⟩
    intro other hother hne
    have hrest : other ∈ first :: rest := hfree ▸ (course.sound.vacant other).mpr hother
    exact horder.1 other ((List.mem_cons.mp hrest).resolve_left hne)

theorem Course.thrifty (course : Course past a) : Thrifty (past ++ [a]) a where
  counted := course.sound.size_eq
  peak := course.peak
  reuse _ _ := course.freedLast
  stale key h := by
    rw [remove_of_get?_eq_none h]
    exact ⟨rfl, rfl⟩

theorem course_take {γ : Type} (arena : γ → Arena α) {course : List γ}
    (chain : course.IsChain fun x y => (arena x).Step (arena y))
    (hstart : course.head?.map arena = some ∅) (n : Nat) (h : n < course.length) :
    Course ((course.take n).map arena) (arena course[n]) := by
  induction n with
  | zero =>
    obtain ⟨first, hfirst, hempty⟩ := Option.map_eq_some_iff.mp hstart
    obtain ⟨rest, rfl⟩ := List.head?_eq_some_iff.mp hfirst
    rw [List.getElem_cons_zero, hempty]
    exact .start
  | succ n ih =>
    have hn := Nat.lt_of_succ_lt h
    rw [List.take_succ_eq_append_getElem hn, List.map_append]
    exact (ih hn).step (List.isChain_iff_getElem.mp chain n h)

end Course

end Cohort.Arena
