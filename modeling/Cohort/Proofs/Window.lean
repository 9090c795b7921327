import Cohort.Window
import Cohort.Tally.Share

/-! The window seen from its open period backwards: a rotation puts an empty period in front, and
what no longer fits behind is handed back. -/

namespace Cohort

theorem Period.count_addEdges (p : Period) (keys : List Key) (key : Key) :
    (p.addEdges keys).edges.count key = p.edges.count key + keys.count key := by
  unfold Period.addEdges
  induction keys generalizing p with
  | nil => simp
  | cons first rest ih =>
    rw [List.foldl_cons, ih, List.count_cons]
    simp only [Period.addEdge, Tally.count_add, Std.compare_eq_iff_eq, beq_iff_eq]
    split
    next h => rw [h]; omega
    next => omega

theorem Period.edges_addEdges (p : Period) (keys : List Key) :
    (p.addEdges keys).edges = keys.foldl (fun counts key => counts.add key 1) p.edges := by
  unfold addEdges
  induction keys generalizing p with
  | nil => rfl
  | cons key rest ih => exact ih (p.addEdge key)

theorem Period.conflicts_addEdges (p : Period) (keys : List Key) :
    (p.addEdges keys).conflicts = p.conflicts := by
  unfold addEdges
  induction keys generalizing p with
  | nil => rfl
  | cons key rest ih => exact ih (p.addEdge key)

namespace Window

/-- The periods of a window, the open one first and then the latest one closed. -/
def latest (w : Window) : List Period :=
  w.opened :: w.closed.toList.reverse

def Within (w : Window) : Prop :=
  w.closed.size ≤ w.count

theorem length_latest (w : Window) : w.latest.length = w.closed.size + 1 := by
  simp [latest]

theorem within_of_ofCount {count : Nat} {w : Window} (h : ofCount count = .ok w) : w.Within := by
  obtain ⟨-, -, rfl⟩ := ofCount_eq_ok.mp h
  exact Nat.zero_le _

theorem count_of_ofCount {count : Nat} {w : Window} (h : ofCount count = .ok w) :
    w.count = count := by
  obtain ⟨-, -, rfl⟩ := ofCount_eq_ok.mp h
  rfl

theorem latest_of_ofCount {count : Nat} {w : Window} (h : ofCount count = .ok w) :
    w.latest = [∅] := by
  obtain ⟨-, -, rfl⟩ := ofCount_eq_ok.mp h
  rfl

def tallies (w : Window) : List (Tally Key) :=
  w.latest.map (·.edges)

theorem tallies_eq (w : Window) :
    w.tallies = w.opened.edges :: (w.closed.toList.map (·.edges)).reverse := by
  rw [tallies, latest, List.map_cons, List.map_reverse]

def noted (w : Window) (key : Key) : Nat :=
  addUp (w.tallies.map (·.count key))

theorem noted_of_ofCount {count : Nat} {w : Window} (h : ofCount count = .ok w) (key : Key) :
    w.noted key = 0 := by
  simp [noted, tallies, latest_of_ofCount h]

theorem noted_recordEdges (w : Window) (keys : List Key) (key : Key) :
    (w.recordEdges keys).noted key = w.noted key + keys.count key := by
  have hopened : (w.recordEdges keys).opened = w.opened.addEdges keys := rfl
  have hclosed : (w.recordEdges keys).closed = w.closed := rfl
  simp only [noted, tallies_eq, List.map_cons, addUp_cons, hopened, hclosed, Period.count_addEdges]
  omega

theorem addUp_rotate (w : Window) (amount : Period → Nat) (hempty : amount ∅ = 0) :
    addUp (w.rotate.2.latest.map amount) + addUp (w.rotate.1.toList.map amount) =
      addUp (w.latest.map amount) := by
  have hclosed := congrArg (fun periods => addUp (periods.map amount)) w.rotate_closed
  simp only [List.map_append, addUp_append, List.map_cons, List.map_nil, addUp_cons,
    addUp_nil] at hclosed
  simp only [latest, List.map_cons, addUp_cons, List.map_reverse,
    addUp_perm (List.reverse_perm _), opened_rotate, hempty]
  omega

theorem noted_rotate (w : Window) (key : Key) :
    w.rotate.2.noted key + addUp (w.rotate.1.toList.map (·.edges.count key)) = w.noted key := by
  simp only [noted, tallies, List.map_map]
  exact w.addUp_rotate _ (Tally.count_empty key)

theorem tallies_recordEdges (w : Window) (keys : List Key) :
    (w.recordEdges keys).tallies =
      (w.opened.addEdges keys).edges :: (w.closed.toList.map (·.edges)).reverse :=
  tallies_eq _

theorem tallies_recordConflict (w : Window) (node : NodeId) (object : ObjectId) :
    (w.recordConflict node object).tallies = w.tallies := by
  rw [tallies_eq, tallies_eq]
  rfl

variable {w : Window}

theorem rotate_of_room (h : w.closed.size < w.count) :
    w.rotate = (none, { w with closed := w.closed.push w.opened, opened := ∅ }) := by
  have hfits : (w.closed.push w.opened).size ≤ w.count := h
  simp only [rotate, hfits, if_true]

theorem rotate_of_full (h : ¬ w.closed.size < w.count) :
    w.rotate = ((w.closed.push w.opened).pop.1,
      { w with closed := (w.closed.push w.opened).pop.2, opened := ∅ }) := by
  have hover : ¬ (w.closed.push w.opened).size ≤ w.count := h
  simp only [rotate, hover, if_false]

theorem push_reverse : (w.closed.push w.opened).toList.reverse = w.latest := by
  simp [latest]

/-- What a rotation does to a part of each period is decided by the same part of what is there. -/
theorem rotate_congr {τ : Type} {w' : Window} (part : Period → τ) (hcount : w.count = w'.count)
    (hparts : w.latest.map part = w'.latest.map part) :
    w.rotate.1.map part = w'.rotate.1.map part ∧
      w.rotate.2.latest.map part = w'.rotate.2.latest.map part := by
  have hsize : w.closed.size = w'.closed.size := by
    have hlength := congrArg List.length hparts
    simpa [length_latest] using hlength
  by_cases hroom : w.closed.size < w.count
  · rw [rotate_of_room hroom, rotate_of_room (hsize ▸ hcount ▸ hroom)]
    refine ⟨rfl, congrArg (part ∅ :: ·) ?_⟩
    rw [push_reverse, push_reverse, hparts]
  · rw [rotate_of_full hroom, rotate_of_full (hsize ▸ hcount ▸ hroom)]
    have hback (w : Window) : (w.closed.push w.opened).toList.map part =
        (w.latest.map part).reverse := by
      rw [← List.map_reverse, ← push_reverse, List.reverse_reverse]
    constructor
    · rw [Queue.pop_fst, Queue.pop_fst, ← List.head?_map, ← List.head?_map, hback, hback, hparts]
    · refine congrArg (part ∅ :: ·) ?_
      rw [List.map_reverse, List.map_reverse, Queue.toList_pop, Queue.toList_pop, List.map_tail,
        List.map_tail, hback, hback, hparts]

/-- A rotation puts an empty period in front of as many periods as the window retains. -/
theorem latest_rotate (h : w.Within) :
    w.rotate.2.latest = (∅ :: w.latest).take (w.count + 1) := by
  have hlength := w.length_latest
  unfold Within at h
  by_cases hroom : w.closed.size < w.count
  · rw [rotate_of_room hroom, List.take_of_length_le (by simp only [List.length_cons]; omega)]
    exact congrArg (∅ :: ·) push_reverse
  · have hlast : w.latest.dropLast = w.latest.take w.count := by
      rw [List.dropLast_eq_take, hlength]
      congr 1
      omega
    rw [rotate_of_full hroom, List.take_succ_cons, ← hlast, ← @push_reverse w,
      List.dropLast_reverse, ← Queue.toList_pop]
    rfl

theorem map_latest_rotate {τ : Type} (h : w.Within) (part : Period → τ) :
    w.rotate.2.latest.map part = (part ∅ :: w.latest.map part).take (w.count + 1) := by
  rw [latest_rotate h, List.map_take, List.map_cons]

theorem tallies_rotate (h : w.Within) :
    w.rotate.2.tallies = (∅ :: w.tallies).take (w.count + 1) :=
  map_latest_rotate h (·.edges)

theorem size_closed_rotate (h : w.Within) :
    w.rotate.2.closed.size = min (w.closed.size + 1) w.count := by
  have hlength := congrArg List.length (latest_rotate h)
  rw [length_latest, List.length_take, List.length_cons, length_latest] at hlength
  omega

theorem Within.rotate (h : w.Within) : w.rotate.2.Within := by
  unfold Within
  rw [size_closed_rotate h, count_rotate]
  exact Nat.min_le_right ..

theorem rotate_fst (h : w.Within) : w.rotate.1 = w.latest[w.count]? := by
  have hlength := w.length_latest
  unfold Within at h
  by_cases hroom : w.closed.size < w.count
  · rw [rotate_of_room hroom, List.getElem?_eq_none (by omega)]
  · have hlast : w.latest.getLast? = w.latest[w.count]? := by
      rw [List.getLast?_eq_getElem?, hlength]
      congr 1
      omega
    rw [rotate_of_full hroom, ← hlast, Queue.pop_fst, ← push_reverse, List.getLast?_reverse]

end Window

end Cohort
