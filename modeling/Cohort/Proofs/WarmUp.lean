import Cohort.Proofs.DelayLine

/-! A window that counts its rotations until it is full, with all its periods in one line. The
counter is always one ahead of the number of closed periods, so it tells when a period is due. -/

namespace Cohort.Window

/-- The number of rotations so far, from one on and until the window is full, and the periods with
the open one last. -/
structure Counting where
  count : Nat
  current : Nat
  line : List Period

namespace Counting

def ofCount (count : Nat) : Counting :=
  ⟨count, 1, [∅]⟩

def changeOpen (c : Counting) (f : Period → Period) : Counting :=
  { c with line := c.line.dropLast ++ [f (c.line.getLast?.getD ∅)] }

def recordEdges (c : Counting) (keys : List Key) : Counting :=
  if keys.isEmpty then c else c.changeOpen (·.addEdges keys)

def recordConflict (c : Counting) (node : NodeId) (object : ObjectId) : Counting :=
  c.changeOpen (·.addConflict node object)

def rotate (c : Counting) : Option Period × Counting :=
  let line := c.line ++ [∅]
  if c.current ≤ c.count then (none, { c with current := c.current + 1, line })
  else (line.head?, { c with line := line.tail })

def queued (c : Counting) : Nat :=
  c.line.length

def openEdges (c : Counting) (key : Key) : Nat :=
  (c.line.getLast?.map (·.edges.count key)).getD 0

def step (c : Counting) : Step → Counting
  | .edges keys => c.recordEdges keys
  | .conflict node object => c.recordConflict node object
  | .rotate => c.rotate.2

def run (c : Counting) (steps : List Step) : Counting :=
  steps.foldl step c

def answers (c : Counting) : List Step → List (Option Period)
  | [] => []
  | .rotate :: rest => c.rotate.1 :: c.rotate.2.answers rest
  | other :: rest => (c.step other).answers rest

structure Matches (c : Counting) (w : Window) : Prop where
  count : c.count = w.count
  current : c.current = w.closed.size + 1
  line : c.line = w.closed.toList ++ [w.opened]

variable {c : Counting} {w : Window}

theorem matches_ofCount {count : Nat} (h : Window.ofCount count = .ok w) :
    (ofCount count).Matches w := by
  obtain ⟨-, -, rfl⟩ := ofCount_eq_ok.mp h
  exact ⟨rfl, rfl, rfl⟩

theorem Matches.changeOpen (hmatch : c.Matches w) (f : Period → Period) :
    (c.changeOpen f).Matches { w with opened := f w.opened } := by
  refine ⟨hmatch.count, hmatch.current, ?_⟩
  simp [Counting.changeOpen, hmatch.line]

theorem Matches.recordEdges (hmatch : c.Matches w) (keys : List Key) :
    (c.recordEdges keys).Matches (w.recordEdges keys) := by
  unfold Counting.recordEdges
  split
  next hnone =>
    obtain rfl := List.isEmpty_iff.mp hnone
    exact hmatch
  next => exact hmatch.changeOpen _

theorem Matches.rotate (hmatch : c.Matches w) (hwithin : w.Within) :
    c.rotate.1 = w.rotate.1 ∧ c.rotate.2.Matches w.rotate.2 := by
  have hcurrent := hmatch.current
  have hcount := hmatch.count
  have hsize := size_closed_rotate hwithin
  have hline : c.line = (w.closed.push w.opened).toList := by simp [hmatch.line]
  have hnonempty : c.line ≠ [] := by simp [hmatch.line]
  have hhead : (c.line ++ [∅]).head? = c.line.head? := by simp [hmatch.line]
  unfold Within at hwithin
  -- the counter is past `count` exactly when the line is full
  by_cases hroom : w.closed.size < w.count
  · rw [Counting.rotate, if_pos (by omega)]
    rw [rotate_of_room hroom] at hsize ⊢
    refine ⟨rfl, hcount, ?_, congrArg (· ++ [∅]) hline⟩
    dsimp only at hsize ⊢
    omega
  · rw [Counting.rotate, if_neg (by omega), hhead,
      List.tail_append_of_ne_nil hnonempty, hline]
    rw [rotate_of_full hroom] at hsize ⊢
    refine ⟨(Queue.pop_fst _).symm, hcount, ?_, congrArg (· ++ [∅]) (Queue.toList_pop _).symm⟩
    dsimp only at hsize ⊢
    omega

theorem Matches.step (hmatch : c.Matches w) (hwithin : w.Within) (s : Step) :
    (c.step s).Matches (w.step s) := by
  cases s with
  | edges keys => exact hmatch.recordEdges keys
  | conflict node object => exact hmatch.changeOpen (·.addConflict node object)
  | rotate => exact (hmatch.rotate hwithin).2

theorem Matches.openEdges (hmatch : c.Matches w) (key : Key) :
    c.openEdges key = w.openEdges key := by
  simp [Counting.openEdges, hmatch.line, Window.openEdges]

theorem Matches.queued (hmatch : c.Matches w) : c.queued = w.queued := by
  simp [Counting.queued, hmatch.line, Window.queued]

theorem answers_concat (c : Counting) (steps : List Step) (s : Step) :
    c.answers (steps ++ [s]) =
      c.answers steps ++ if s.isRotate then [(c.run steps).rotate.1] else [] := by
  induction steps generalizing c with
  | nil => cases s <;> rfl
  | cons first rest ih =>
    cases first with
    | rotate => exact congrArg (c.rotate.1 :: ·) (ih _)
    | edges keys => exact ih _
    | conflict node object => exact ih _

theorem matches_run {count : Nat} (h : Window.ofCount count = .ok w) (steps : List Step) :
    ((ofCount count).run steps).Matches (w.run steps) := by
  induction steps using List.reverseRecOn with
  | nil => exact matches_ofCount h
  | append_singleton steps s ih =>
    rw [Counting.run, Window.run, List.foldl_append, List.foldl_append]
    exact ih.step (Filled.run h steps).within s

end Counting

/-- To count the rotations until the window is full is to count the closed periods. -/
theorem counting_agrees {count : Nat} {w : Window} (h : ofCount count = .ok w)
    (steps : List Step) :
    (Counting.ofCount count).answers steps = w.answers steps ∧
      ((Counting.ofCount count).run steps).queued = (w.run steps).queued ∧
      ∀ key, ((Counting.ofCount count).run steps).openEdges key = (w.run steps).openEdges key := by
  have hmatch := Counting.matches_run h steps
  refine ⟨?_, hmatch.queued, hmatch.openEdges⟩
  induction steps using List.reverseRecOn with
  | nil => rfl
  | append_singleton steps s ih =>
    have hearlier := Counting.matches_run h steps
    rw [Counting.answers_concat, answers_concat, ih hearlier,
      (hearlier.rotate (Filled.run h steps).within).1]

end Cohort.Window
