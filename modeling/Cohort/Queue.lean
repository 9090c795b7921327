/-!
Queues: what joins first leaves first.

A queue is the list of its elements, the oldest first. It is kept in two halves, so that joining
and leaving take no longer the more elements there are.
-/

namespace Cohort

variable {α : Type}

/-- The older elements with the oldest first, the newer ones with the newest first, and the number
of them all. -/
structure Queue (α : Type) where
  older : List α
  newer : List α
  size : Nat
  size_eq : size = older.length + newer.length

namespace Queue

instance : EmptyCollection (Queue α) := ⟨⟨[], [], 0, rfl⟩⟩

instance : Inhabited (Queue α) := ⟨∅⟩

def toList (q : Queue α) : List α :=
  q.older ++ q.newer.reverse

def push (q : Queue α) (a : α) : Queue α where
  older := q.older
  newer := a :: q.newer
  size := q.size + 1
  size_eq := by simp [q.size_eq, Nat.add_assoc]

def pop (q : Queue α) : Option α × Queue α :=
  match q with
  | ⟨a :: older, newer, size, same⟩ =>
    (some a, ⟨older, newer, size - 1, by simp at same; omega⟩)
  | ⟨[], newer, _, _⟩ =>
    match newer.reverse with
    | [] => (none, ∅)
    | a :: older => (some a, ⟨older, [], older.length, rfl⟩)

@[simp] theorem toList_empty : (∅ : Queue α).toList = [] :=
  rfl

@[simp] theorem length_toList (q : Queue α) : q.toList.length = q.size := by
  simp [toList, q.size_eq]

@[simp] theorem toList_push (q : Queue α) (a : α) : (q.push a).toList = q.toList ++ [a] := by
  simp [toList, push]

@[simp] theorem size_push (q : Queue α) (a : α) : (q.push a).size = q.size + 1 :=
  rfl

@[simp] theorem pop_fst (q : Queue α) : q.pop.1 = q.toList.head? := by
  obtain ⟨older, newer, size, same⟩ := q
  cases older with
  | cons a older => rfl
  | nil =>
    simp only [pop, toList, List.nil_append]
    cases newer.reverse <;> rfl

@[simp] theorem toList_pop (q : Queue α) : q.pop.2.toList = q.toList.tail := by
  obtain ⟨older, newer, size, same⟩ := q
  cases older with
  | cons a older => rfl
  | nil =>
    simp only [pop, toList, List.nil_append]
    cases newer.reverse with
    | nil => rfl
    | cons a older => simp

end Queue

end Cohort
