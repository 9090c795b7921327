import Cohort.Table

/-!
Slots addressed by generational keys.

Freeing a slot moves it to its next generation, so a key of an earlier generation no longer
resolves. The slot freed last is filled first.
-/

namespace Cohort

/-- A slot number with the generation in which the slot was filled. -/
structure Key where
  index : Nat
  generation : UInt32
  deriving DecidableEq, Repr, Inhabited

namespace Key

instance : Ord Key where
  compare left right :=
    (compare left.index right.index).then (compare left.generation right.generation)

theorem compare_key (left right : Key) :
    compare left right =
      (compare left.index right.index).then (compare left.generation right.generation) :=
  rfl

instance : Std.TransOrd Key :=
  inferInstanceAs (Std.TransCmp (compareLex (compareOn Key.index) (compareOn Key.generation)))

instance : Std.LawfulEqOrd Key where
  compare_self := by simp
  eq_of_compare {left right} same := by
    simp only [compare_key, Ordering.then_eq_eq, Std.compare_eq_iff_eq] at same
    cases left; cases right; simpa using same

end Key

structure Slot (α : Type) where
  generation : UInt32
  value : Option α

def Slot.modify {α : Type} (slot : Slot α) (generation : UInt32) (f : α → α) : Slot α :=
  match slot with
  | ⟨present, value⟩ =>
    if present = generation then ⟨present, value.map f⟩ else ⟨present, value⟩

/-- Slots, the indices of the vacant ones with the latest first, and the number of values. -/
structure Arena (α : Type) where
  slots : Array (Slot α)
  free : List Nat
  size : Nat

namespace Arena

variable {α : Type}

instance : EmptyCollection (Arena α) := ⟨#[], [], 0⟩

instance : Inhabited (Arena α) := ⟨∅⟩

def get? (a : Arena α) (key : Key) : Option α :=
  match a.slots[key.index]? with
  | none => none
  | some slot => if slot.generation = key.generation then slot.value else none

def generation (a : Arena α) (index : Nat) : UInt32 :=
  (a.slots[index]?.map Slot.generation).getD 0

def store (a : Arena α) (index : Nat) (value : α) : Array (Slot α) :=
  a.slots.setIfInBounds index ⟨a.generation index, some value⟩

/-- Fill the slot freed last, or a new slot when none is vacant. -/
def insert (a : Arena α) (value : α) : Key × Arena α :=
  match a.free with
  | [] => (⟨a.slots.size, 0⟩,
      { a with slots := a.slots.push ⟨0, some value⟩, size := a.size + 1 })
  | index :: rest => (⟨index, a.generation index⟩,
      { slots := a.store index value, free := rest, size := a.size + 1 })

/-- Change the value behind a key; a key that does not resolve changes nothing. The slot is
changed where it is, so that nothing has to be copied. -/
def modify (a : Arena α) (key : Key) (f : α → α) : Arena α :=
  match a with
  | ⟨slots, free, size⟩ =>
    ⟨slots.modify key.index fun slot => slot.modify key.generation f, free, size⟩

/-- Free the slot behind a key; a key that does not resolve changes nothing. -/
def remove (a : Arena α) (key : Key) : Arena α :=
  match a.get? key with
  | none => a
  | some _ =>
    { slots := a.slots.setIfInBounds key.index ⟨key.generation + 1, none⟩
      free := key.index :: a.free
      size := a.size - 1 }

def values (a : Arena α) : List α :=
  a.slots.toList.filterMap Slot.value

@[simp] theorem get?_empty (key : Key) : (∅ : Arena α).get? key = none :=
  rfl

@[simp] theorem values_empty : (∅ : Arena α).values = [] :=
  rfl

theorem remove_of_get?_eq_none {a : Arena α} {key : Key} (unresolved : a.get? key = none) :
    a.remove key = a := by
  simp [remove, unresolved]

@[simp] theorem get?_remove_self (a : Arena α) (key : Key) :
    (a.remove key).get? key = none := by
  unfold remove
  cases found : a.get? key with
  | none => exact found
  | some value =>
    unfold get? at found ⊢
    cases slot : a.slots[key.index]? with
    | none => simp [slot] at found
    | some _ =>
      have bound := (Array.getElem?_eq_some_iff.mp slot).1
      simp [bound]

theorem get?_modify_self (a : Arena α) (key : Key) (f : α → α) :
    (a.modify key f).get? key = (a.get? key).map f := by
  unfold modify get?
  simp only [Array.getElem?_modify]
  cases a.slots[key.index]? with
  | none => simp
  | some slot =>
    simp only [if_true, Option.map_some, Slot.modify]
    split <;> simp [*]

end Arena

end Cohort
