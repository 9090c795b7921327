import Cohort.Proofs.Stretches
import Cohort.Proofs.Window
import Mathlib.Data.List.Induction

/-! The window as a delay line. Whatever is recorded and however often it is rotated, the periods
that it holds are the latest stretches of its history, and a rotation hands back the stretch that
lies as many rotations back as the window retains periods. -/

namespace Cohort

theorem Tally.isEmpty_iff {κ : Type} [Ord κ] [Std.TransOrd κ] [Std.LawfulEqOrd κ] {t : Tally κ} :
    t.isEmpty ↔ ∀ key, t.count key = 0 := by
  constructor
  · intro h key
    have hnone : t.table[key]? = none := by
      rw [Std.ExtTreeMap.isEmpty_iff.mp h]
      exact Std.ExtTreeMap.getElem?_empty
    rw [count, hnone, Option.getD_none]
  · intro h
    have hempty : t = ∅ := by
      ext key
      rw [h key, count_empty]
    rw [hempty]
    rfl

namespace Window

inductive Step
  | edges (keys : List Key)
  | conflict (node : NodeId) (object : ObjectId)
  | rotate

namespace Step

def isRotate : Step → Bool
  | .rotate => true
  | _ => false

def edgeCount (key : Key) : Step → Nat
  | .edges keys => keys.count key
  | _ => 0

def conflictCount (pair : NodeId × ObjectId) : Step → Nat
  | .conflict node object => if (node, object) = pair then 1 else 0
  | _ => 0

def Idle (step : Step) : Prop :=
  (∀ key, step.edgeCount key = 0) ∧ ∀ pair, step.conflictCount pair = 0

end Step

def step (w : Window) : Step → Window
  | .edges keys => w.recordEdges keys
  | .conflict node object => w.recordConflict node object
  | .rotate => w.rotate.2

def run (w : Window) (steps : List Step) : Window :=
  steps.foldl step w

def answers (w : Window) : List Step → List (Option Period)
  | [] => []
  | .rotate :: rest => w.rotate.1 :: w.rotate.2.answers rest
  | other :: rest => (w.step other).answers rest

/-- What the rotation after so many others hands back, nothing when there is no such rotation. -/
def handedBack (w : Window) (steps : List Step) (rotation : Nat) : Period :=
  ((w.answers steps)[rotation]?.join).getD ∅

def rotations (steps : List Step) : Nat :=
  steps.countP Step.isRotate

def between (rotation : Nat) (steps : List Step) : List Step :=
  stretch Step.isRotate rotation steps

def edgeRecords (key : Key) (steps : List Step) : Nat :=
  addUp (steps.map (Step.edgeCount key))

def conflictRecords (pair : NodeId × ObjectId) (steps : List Step) : Nat :=
  addUp (steps.map (Step.conflictCount pair))

/-- A period that counts what some steps recorded, and nothing else. -/
structure Holds (p : Period) (steps : List Step) : Prop where
  edges : ∀ key, p.edges.count key = edgeRecords key steps
  conflicts : ∀ pair, p.conflicts.count pair = conflictRecords pair steps

theorem holds_empty : Holds ∅ [] :=
  ⟨Tally.count_empty, Tally.count_empty⟩

theorem Holds.isEmpty_iff {p : Period} {steps : List Step} (holds : Holds p steps) :
    p.isEmpty ↔ ∀ s ∈ steps, s.Idle := by
  rw [Period.isEmpty, Bool.and_eq_true, Tally.isEmpty_iff, Tally.isEmpty_iff]
  simp only [holds.edges, holds.conflicts]
  constructor
  · rintro ⟨hedges, hconflicts⟩ s hmem
    constructor
    · intro key
      have hle : s.edgeCount key ≤ edgeRecords key steps := le_addUp (List.mem_map_of_mem hmem)
      exact Nat.le_zero.mp (hedges key ▸ hle)
    · intro pair
      have hle : s.conflictCount pair ≤ conflictRecords pair steps :=
        le_addUp (List.mem_map_of_mem hmem)
      exact Nat.le_zero.mp (hconflicts pair ▸ hle)
  · intro hidle
    constructor
    · intro key
      apply addUp_eq_zero
      simpa using fun s hmem => (hidle s hmem).1 key
    · intro pair
      apply addUp_eq_zero
      simpa using fun s hmem => (hidle s hmem).2 pair

theorem rotations_concat (steps : List Step) (s : Step) :
    rotations (steps ++ [s]) = rotations steps + if s.isRotate then 1 else 0 := by
  simp [rotations, List.countP_append, List.countP_cons]

theorem answers_concat (w : Window) (steps : List Step) (s : Step) :
    w.answers (steps ++ [s]) =
      w.answers steps ++ if s.isRotate then [(w.run steps).rotate.1] else [] := by
  induction steps generalizing w with
  | nil => cases s <;> rfl
  | cons first rest ih =>
    cases first with
    | rotate => exact congrArg (w.rotate.1 :: ·) (ih _)
    | edges keys => exact ih _
    | conflict node object => exact ih _

theorem length_answers (w : Window) (steps : List Step) :
    (w.answers steps).length = rotations steps := by
  induction steps using List.reverseRecOn with
  | nil => rfl
  | append_singleton steps s ih =>
    rw [answers_concat, List.length_append, ih, rotations_concat]
    split <;> rfl

theorem Holds.insert {p p' : Period} {before later : List Step} {s : Step} {n : Nat}
    (holds : Holds p (between n (before ++ later))) (hplain : s.isRotate = false)
    (hedges : ∀ key, p'.edges.count key =
      p.edges.count key + if n = rotations before then s.edgeCount key else 0)
    (hconflicts : ∀ pair, p'.conflicts.count pair =
      p.conflicts.count pair + if n = rotations before then s.conflictCount pair else 0) :
    Holds p' (between n (before ++ s :: later)) where
  edges key := by
    rw [hedges, holds.edges]
    exact (addUp_stretch_insert _ hplain before later n).symm
  conflicts pair := by
    rw [hconflicts, holds.conflicts]
    exact (addUp_stretch_insert _ hplain before later n).symm

theorem Holds.concat {p : Period} {steps : List Step} {n : Nat} (holds : Holds p (between n steps))
    (s : Step) (h : s.isRotate ∨ n ≠ rotations steps) : Holds p (between n (steps ++ [s])) := by
  cases hrotate : s.isRotate with
  | true =>
    rw [between, stretch_concat_mark hrotate]
    exact holds
  | false =>
    have hearlier : n ≠ rotations steps := by simpa [hrotate] using h
    have holds : Holds p (between n (steps ++ [])) := by rwa [steps.append_nil]
    apply holds.insert hrotate
    · simp [hearlier]
    · simp [hearlier]

structure Filled (count : Nat) (steps : List Step) (w : Window) : Prop where
  retains : w.count = count
  closed : w.closed.size = min (rotations steps) count
  latest : ∀ j ≤ w.closed.size, ∃ p, w.latest[j]? = some p ∧
    Holds p (between (rotations steps - j) steps)

section Filled

variable {count : Nat} {steps : List Step} {w : Window}

theorem filled_ofCount (h : ofCount count = .ok w) : Filled count [] w := by
  obtain ⟨-, -, rfl⟩ := ofCount_eq_ok.mp h
  refine ⟨rfl, (Nat.zero_min count).symm, fun j hj => ?_⟩
  obtain rfl : j = 0 := Nat.le_zero.mp hj
  exact ⟨∅, rfl, holds_empty⟩

theorem Filled.within (filled : Filled count steps w) : w.Within := by
  rw [Within, filled.retains, filled.closed]
  exact Nat.min_le_right ..

theorem Filled.record (filled : Filled count steps w) {s : Step} {p : Period}
    (hplain : s.isRotate = false)
    (hedges : ∀ key, p.edges.count key = w.opened.edges.count key + s.edgeCount key)
    (hconflicts : ∀ pair,
      p.conflicts.count pair = w.opened.conflicts.count pair + s.conflictCount pair) :
    Filled count (steps ++ [s]) { w with opened := p } := by
  have hrotations : rotations (steps ++ [s]) = rotations steps := by
    rw [rotations_concat, hplain]
    rfl
  refine ⟨filled.retains, hrotations ▸ filled.closed, fun j hj => ?_⟩
  obtain ⟨old, hold, holds⟩ := filled.latest j hj
  rw [hrotations]
  cases j with
  | zero =>
    obtain rfl : w.opened = old := Option.some.inj hold
    have hopened : Holds w.opened (between (rotations steps) (steps ++ [])) := by
      rwa [steps.append_nil]
    refine ⟨p, rfl, hopened.insert hplain (fun key => ?_) fun pair => ?_⟩
    · rw [if_pos rfl, hedges]
    · rw [if_pos rfl, hconflicts]
  | succ i =>
    have hsize : w.closed.size ≤ rotations steps := by
      rw [filled.closed]
      exact Nat.min_le_left ..
    have hj : i + 1 ≤ w.closed.size := hj
    exact ⟨old, hold, holds.concat s (.inr (by omega))⟩

/-- A rotation puts an empty period in front, and all else lies one further back. -/
theorem Filled.rotate (filled : Filled count steps w) :
    Filled count (steps ++ [.rotate]) w.rotate.2 := by
  have hclosed := filled.closed
  have hretains := filled.retains
  have hrotations : rotations (steps ++ [.rotate]) = rotations steps + 1 := rotations_concat ..
  have hsize : w.rotate.2.closed.size = min (rotations steps + 1) count := by
    rw [size_closed_rotate filled.within]
    omega
  refine ⟨by rw [count_rotate, hretains], hrotations ▸ hsize, fun j hj => ?_⟩
  rw [hrotations]
  rw [hsize] at hj
  rw [latest_rotate filled.within, hretains, List.getElem?_take, if_pos (by omega)]
  cases j with
  | zero =>
    refine ⟨∅, rfl, ?_⟩
    have hnew : between (rotations steps + 1) (steps ++ [.rotate]) = [] := by
      rw [between, stretch_concat_mark rfl]
      exact stretch_of_lt (Nat.lt_succ_self _)
    rw [Nat.sub_zero, hnew]
    exact holds_empty
  | succ i =>
    obtain ⟨p, hp, holds⟩ := filled.latest i (by omega)
    rw [List.getElem?_cons_succ, Nat.add_sub_add_right]
    exact ⟨p, hp, holds.concat _ (.inl rfl)⟩

theorem Filled.step (filled : Filled count steps w) (s : Step) :
    Filled count (steps ++ [s]) (w.step s) := by
  cases s with
  | rotate => exact filled.rotate
  | edges keys =>
    exact filled.record rfl (Period.count_addEdges _ keys) fun pair => by
      rw [Period.conflicts_addEdges]
      rfl
  | conflict node object =>
    refine filled.record (p := w.opened.addConflict node object) rfl (fun key => rfl) fun pair => ?_
    simp only [Period.addConflict, Tally.count_add, Std.compare_eq_iff_eq, Step.conflictCount]
    split
    next hpair => rw [hpair]
    next => rfl

theorem Filled.run (h : ofCount count = .ok w) (steps : List Step) :
    Filled count steps (w.run steps) := by
  induction steps using List.reverseRecOn with
  | nil => exact filled_ofCount h
  | append_singleton steps s ih =>
    rw [Window.run, List.foldl_append]
    exact ih.step s

theorem Filled.rotate_fst (filled : Filled count steps w) :
    if rotations steps < count then w.rotate.1 = none
    else ∃ p, w.rotate.1 = some p ∧ Holds p (between (rotations steps - count) steps) := by
  have hclosed := filled.closed
  rw [Window.rotate_fst filled.within, filled.retains]
  split
  next hfilling =>
    apply List.getElem?_eq_none
    rw [length_latest]
    omega
  next => exact filled.latest count (by omega)

end Filled

theorem answers_cases {count : Nat} {w : Window} (h : ofCount count = .ok w) (steps : List Step)
    {k : Nat} (hk : k < rotations steps) :
    if k < count then (w.answers steps)[k]? = some none
    else ∃ p, (w.answers steps)[k]? = some (some p) ∧ Holds p (between (k - count) steps) := by
  induction steps using List.reverseRecOn with
  | nil => exact absurd hk (Nat.not_lt_zero k)
  | append_singleton steps s ih =>
    have hlength := w.length_answers steps
    rw [rotations_concat] at hk
    rw [answers_concat]
    by_cases hearlier : k < rotations steps
    · rw [List.getElem?_append_left (by omega)]
      have hold := ih hearlier
      split
      next hfilling => rwa [if_pos hfilling] at hold
      next hfull =>
        rw [if_neg hfull] at hold
        obtain ⟨p, hp, holds⟩ := hold
        exact ⟨p, hp, holds.concat s (.inr (by omega))⟩
    · by_cases hrotate : s.isRotate
      · rw [if_pos hrotate] at hk ⊢
        obtain rfl : k = rotations steps := by omega
        rw [← hlength, List.getElem?_concat_length, hlength]
        have hlast := (Filled.run h steps).rotate_fst
        split
        next hfilling => rw [(if_pos hfilling ▸ hlast :)]
        next hfull =>
          rw [if_neg hfull] at hlast
          obtain ⟨p, hp, holds⟩ := hlast
          exact ⟨p, congrArg some hp, holds.concat s (.inl hrotate)⟩
      · rw [if_neg hrotate] at hk
        exact absurd hk hearlier

/-- The steps whose records a rotation is to hand back. -/
def due (count : Nat) (steps : List Step) (rotation : Nat) : List Step :=
  if count ≤ rotation ∧ rotation < rotations steps then between (rotation - count) steps else []

theorem holds_handedBack {count : Nat} {w : Window} (h : ofCount count = .ok w)
    (steps : List Step) (rotation : Nat) :
    Holds (w.handedBack steps rotation) (due count steps rotation) := by
  unfold handedBack due
  by_cases hmade : rotation < rotations steps
  · have hanswer := answers_cases h steps hmade
    split at hanswer
    next hfilling =>
      rw [hanswer, if_neg (by omega)]
      exact holds_empty
    next hfull =>
      obtain ⟨p, hp, holds⟩ := hanswer
      rw [hp, if_pos (by omega)]
      exact holds
  · have hnone : (w.answers steps)[rotation]? = none := by
      rw [List.getElem?_eq_none_iff, length_answers]
      exact Nat.le_of_not_lt hmade
    rw [hnone, if_neg (by omega)]
    exact holds_empty

theorem addUp_due_insert (amount : Step → Nat) {s : Step} (h : s.isRotate = false)
    (before later : List Step) (count rotation : Nat) :
    addUp ((due count (before ++ s :: later) rotation).map amount) =
      addUp ((due count (before ++ later) rotation).map amount) +
        if rotation = rotations before + count ∧ count < rotations later then amount s else 0 := by
  have hwith : rotations (before ++ s :: later) = rotations before + rotations later := by
    simp [rotations, h]
  have hwithout : rotations (before ++ later) = rotations before + rotations later :=
    List.countP_append
  unfold due
  rw [hwith, hwithout]
  by_cases hdue : count ≤ rotation ∧ rotation < rotations before + rotations later
  · rw [if_pos hdue, if_pos hdue, between, addUp_stretch_insert amount h]
    have hnumber : rotation - count = before.countP Step.isRotate ↔
        rotation = rotations before + count ∧ count < rotations later := by
      unfold rotations at hdue ⊢
      omega
    simp only [hnumber]
    rfl
  · rw [if_neg hdue, if_neg hdue, if_neg (by omega)]
    rfl

/-- A rotation hands back what was recorded `count` rotations ago, once and whole, and nothing while
there were fewer. -/
theorem exact_delay_line {count : Nat} {w : Window} (h : ofCount count = .ok w) :
    (∀ steps,
      (w.answers steps).length = rotations steps ∧
      (∀ k < rotations steps, k < count → (w.answers steps)[k]? = some none) ∧
      (∀ k < rotations steps, count ≤ k → ∃ p, (w.answers steps)[k]? = some (some p) ∧
        (∀ key, p.edges.count key = edgeRecords key (between (k - count) steps)) ∧
        (∀ node object, p.conflicts.count (node, object) =
          conflictRecords (node, object) (between (k - count) steps)) ∧
        (p.isEmpty ↔ ∀ s ∈ between (k - count) steps, s.Idle)) ∧
      (∀ key, (w.run steps).openEdges key =
        edgeRecords key (between (rotations steps) steps)) ∧
      (w.run steps).queued = min (rotations steps) count + 1) ∧
    ∀ before s later, s.isRotate = false → ∀ rotation,
      (∀ key, (w.handedBack (before ++ s :: later) rotation).edges.count key =
        (w.handedBack (before ++ later) rotation).edges.count key +
          if rotation = rotations before + count ∧ count < rotations later then s.edgeCount key
          else 0) ∧
      ∀ pair, (w.handedBack (before ++ s :: later) rotation).conflicts.count pair =
        (w.handedBack (before ++ later) rotation).conflicts.count pair +
          if rotation = rotations before + count ∧ count < rotations later then
            s.conflictCount pair
          else 0 := by
  constructor
  · intro steps
    have hfilled := Filled.run h steps
    refine ⟨w.length_answers steps, fun k hk hfilling => ?_, fun k hk hfull => ?_, fun key => ?_,
      ?_⟩
    · have hanswer := answers_cases h steps hk
      rwa [if_pos hfilling] at hanswer
    · have hanswer := answers_cases h steps hk
      rw [if_neg (Nat.not_lt.mpr hfull)] at hanswer
      obtain ⟨p, hp, holds⟩ := hanswer
      exact ⟨p, hp, holds.edges, fun node object => holds.conflicts _, holds.isEmpty_iff⟩
    · obtain ⟨p, hp, holds⟩ := hfilled.latest 0 (Nat.zero_le _)
      obtain rfl : (w.run steps).opened = p := Option.some.inj hp
      exact holds.edges key
    · rw [queued, hfilled.closed]
  · intro before s later hplain rotation
    have hwith := holds_handedBack h (before ++ s :: later) rotation
    have hwithout := holds_handedBack h (before ++ later) rotation
    constructor
    · intro key
      rw [hwith.edges, hwithout.edges]
      exact addUp_due_insert _ hplain before later count rotation
    · intro pair
      rw [hwith.conflicts, hwithout.conflicts]
      exact addUp_due_insert _ hplain before later count rotation

theorem exact_delay_line_two_periods : ∃ w, ofCount 2 = .ok w ∧
    let steps := [Step.edges [⟨0, 0⟩, ⟨0, 0⟩], .rotate, .conflict 3 7, .rotate, .rotate, .rotate]
    (w.answers steps)[1]? = some none ∧
    (∃ p, (w.answers steps)[2]? = some (some p) ∧ p.edges.count ⟨0, 0⟩ = 2) ∧
    (∃ p, (w.answers steps)[3]? = some (some p) ∧ p.conflicts.count (3, 7) = 1) ∧
    (w.run steps).queued = 3 := by
  have h : ofCount 2 = .ok ⟨2, ∅, ∅⟩ := rfl
  refine ⟨_, h, ?_⟩
  intro steps
  obtain ⟨-, hfilling, hfull, -, hqueued⟩ := (exact_delay_line h).1 steps
  refine ⟨hfilling 1 (by decide) (by decide), ?_, ?_, hqueued⟩
  · obtain ⟨p, hp, hedges, -⟩ := hfull 2 (by decide) (by decide)
    exact ⟨p, hp, hedges ⟨0, 0⟩⟩
  · obtain ⟨p, hp, -, hconflicts, -⟩ := hfull 3 (by decide) (by decide)
    exact ⟨p, hp, hconflicts 3 7⟩

end Window

end Cohort
