import Cohort.Arena
import Cohort.Capacity
import Cohort.Queue
import Cohort.Tally
import Cohort.Weight

/-!
The sliding window: what was recorded in each period, and when it is handed back.

A window that retains `count` periods hands every period back at the rotation that follows
`count` later ones, so it is a delay line of that length.
-/

namespace Cohort

/-- What was recorded between two rotations: increments by edge key, conflicts by node and
object. -/
structure Period where
  edges : Tally Key
  conflicts : Tally (NodeId × ObjectId)
  deriving DecidableEq

namespace Period

instance : EmptyCollection Period := ⟨∅, ∅⟩

instance : Inhabited Period := ⟨∅⟩

@[simp] theorem edges_empty : (∅ : Period).edges = ∅ :=
  rfl

@[simp] theorem conflicts_empty : (∅ : Period).conflicts = ∅ :=
  rfl

def isEmpty (p : Period) : Bool :=
  p.edges.isEmpty && p.conflicts.isEmpty

def addEdge (p : Period) (key : Key) : Period :=
  { p with edges := p.edges.add key 1 }

def addConflict (p : Period) (node : NodeId) (object : ObjectId) : Period :=
  { p with conflicts := p.conflicts.add (node, object) 1 }

def addEdges (p : Period) (keys : List Key) : Period :=
  keys.foldl addEdge p

end Period

/-- The open period, and the closed ones in the order in which they were closed. -/
structure Window where
  count : Nat
  closed : Queue Period
  opened : Period

namespace Window

instance : Inhabited Window := ⟨⟨1, ∅, ∅⟩⟩

def periodBytes : Nat := 96

/-- Make sure of the room for a number of full periods. In the midst of a rotation there are two
more, the period that is closed and the one that is opened. -/
def checkRoom (count : Nat) : Except Overflow Unit := do
  let periods ← inWord .sum (count + 2)
  room periodBytes periods

theorem checkRoom_eq_ok {count : Nat} {done : Unit} :
    checkRoom count = .ok done ↔ periodBytes * (count + 2) < roomBound := by
  unfold checkRoom
  cases periods : inWord .sum (count + 2) with
  | ok n =>
    obtain ⟨-, rfl⟩ := inWord_eq_ok.mp periods
    exact room_eq_ok
  | error cause =>
    have large := (inWord_eq_error.mp periods).1
    change Except.error cause = Except.ok done ↔ _
    simp only [reduceCtorEq, false_iff]
    unfold periodBytes roomBound
    unfold wordBound at large
    omega

/-- A window that retains the given number of full periods, at least one, as far as there is room
for them. -/
def ofCount (count : Nat) : Except Failure Window :=
  if count = 0 then .error (.refused (.settings .noPeriods))
  else do
    (checkRoom count).mapError .overflow
    return ⟨count, ∅, ∅⟩

theorem ofCount_eq_ok {count : Nat} {w : Window} :
    ofCount count = .ok w ↔
      count ≠ 0 ∧ periodBytes * (count + 2) < roomBound ∧ w = ⟨count, ∅, ∅⟩ := by
  unfold ofCount
  rw [← @checkRoom_eq_ok count ()]
  split
  · simp [*]
  · cases checkRoom count with
    | ok =>
      change Except.ok (Window.mk count ∅ ∅) = Except.ok w ↔ _
      simp [*, eq_comm]
    | error cause =>
      change Except.error (Failure.overflow cause) = Except.ok w ↔ _
      simp

def recordEdges (w : Window) (keys : List Key) : Window :=
  { w with opened := w.opened.addEdges keys }

def recordConflict (w : Window) (node : NodeId) (object : ObjectId) : Window :=
  { w with opened := w.opened.addConflict node object }

/-- Close the open period; once more periods are closed than the window retains, the oldest
one leaves it. -/
def rotate (w : Window) : Option Period × Window :=
  let closed := w.closed.push w.opened
  if closed.size ≤ w.count then (none, { w with closed, opened := ∅ })
  else
    let (oldest, closed) := closed.pop
    (oldest, { w with closed, opened := ∅ })

def queued (w : Window) : Nat :=
  w.closed.size + 1

def openEdges (w : Window) (key : Key) : Nat :=
  w.opened.edges.count key

@[simp] theorem count_recordEdges (w : Window) (keys : List Key) :
    (w.recordEdges keys).count = w.count :=
  rfl

@[simp] theorem count_recordConflict (w : Window) (node : NodeId) (object : ObjectId) :
    (w.recordConflict node object).count = w.count :=
  rfl

@[simp] theorem count_rotate (w : Window) : w.rotate.2.count = w.count := by
  unfold rotate
  dsimp only
  split <;> rfl

@[simp] theorem opened_rotate (w : Window) : w.rotate.2.opened = ∅ := by
  unfold rotate
  dsimp only
  split <;> rfl

theorem rotate_closed (w : Window) :
    w.rotate.1.toList ++ w.rotate.2.closed.toList = w.closed.toList ++ [w.opened] := by
  unfold rotate
  dsimp only
  split
  · simp
  · simp only [Queue.pop_fst, Queue.toList_pop, Queue.toList_push]
    cases w.closed.toList <;> rfl

end Window

end Cohort
