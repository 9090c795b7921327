import Cohort.Tracker

/-!
Rotation on a clock: the first rotation comes one interval after the start, and then the pruner
waits for an interval before each further one. `lt_elapsed_iff` says which rotations are due at a
time.
-/

namespace Cohort

def Tracker.pruneTimes : Nat → Tracker → Tracker
  | 0, t => t
  | n + 1, t => pruneTimes n t.prune.2

structure Pruner where
  interval : Duration
  started : Nat
  rotations : Nat
  deriving DecidableEq, Repr

namespace Pruner

def start (runtime : Bool) (interval : Duration) (now : Nat) : Except Fault Pruner :=
  if !runtime then .error .noWorker
  else if interval.isZero then .error (.settings .noPruneInterval)
  else .ok ⟨interval, now, 0⟩

/-- The first time that the clock cannot tell, in nanoseconds. It counts seconds in a signed word,
of which the first minute is over before anything is started. -/
def clockEnd : Nat := 9223372036854775748 * Duration.nanosPerSecond

def isDue (p : Pruner) : Bool :=
  p.started + p.interval.nanos < clockEnd

/-- Whether the pruner is at work. One whose first rotation is never due gives up as soon as time
moves. -/
def isRunning (p : Pruner) (now : Nat) : Bool :=
  p.isDue || now ≤ p.started

def dueAt (p : Pruner) (rotation : Nat) : Nat :=
  p.started + p.interval.nanos + rotation * p.interval.wait

def elapsed (p : Pruner) (now : Nat) : Nat :=
  if p.isDue ∧ p.dueAt 0 ≤ now then (now - p.dueAt 0) / p.interval.wait + 1 else 0

theorem dueAt_eq {p : Pruner} (short : p.interval.nanos ≤ Duration.longestWait.nanos)
    (rotation : Nat) : p.dueAt rotation = p.started + (rotation + 1) * p.interval.nanos := by
  rw [dueAt, Duration.wait_eq short, Nat.succ_mul]
  omega

theorem lt_elapsed_iff {p : Pruner} (due : p.isDue) (ticks : 0 < p.interval.nanos)
    {rotation now : Nat} : rotation < p.elapsed now ↔ p.dueAt rotation ≤ now := by
  have later : p.dueAt rotation = p.dueAt 0 + rotation * p.interval.wait := by simp [dueAt]
  unfold elapsed
  split
  next first =>
    rw [Nat.lt_succ_iff, Nat.le_div_iff_mul_le (Duration.wait_pos ticks)]
    omega
  next early =>
    have : now < p.dueAt 0 := by simpa [due] using early
    omega

def catchUp (p : Pruner) (now : Nat) (t : Tracker) : Pruner × Tracker :=
  ({ p with rotations := p.elapsed now }, t.pruneTimes (p.elapsed now - p.rotations))

end Pruner

end Cohort
