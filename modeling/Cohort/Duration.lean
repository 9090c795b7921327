import Cohort.Weight

/-!
Lengths of time, in nanoseconds.
-/

namespace Cohort

structure Duration where
  nanos : Nat
  deriving DecidableEq, Repr, Inhabited

namespace Duration

def nanosPerSecond : Nat := 1000000000

def zero : Duration := ⟨0⟩

/-- Whole seconds and further nanoseconds; a second's worth of nanoseconds is carried over. The
seconds have to fit in a word. -/
def ofParts (seconds nanos : Nat) : Except Overflow Duration :=
  let total := seconds * nanosPerSecond + nanos
  if total / nanosPerSecond < wordBound then .ok ⟨total⟩ else .error .carry

def ofSeconds (n : Nat) : Duration := ⟨n * nanosPerSecond⟩

def ofMillis (n : Nat) : Duration := ⟨n * 1000000⟩

def ofMicros (n : Nat) : Duration := ⟨n * 1000⟩

def isZero (d : Duration) : Bool :=
  d.nanos == 0

def seconds (d : Duration) : Nat :=
  d.nanos / nanosPerSecond

def subsecond (d : Duration) : Nat :=
  d.nanos % nanosPerSecond

def longestWait : Duration := .ofSeconds (30 * 365 * 86400)

/-- How long it takes to wait for a length of time, in nanoseconds. Longer waits than the longest
end with it. -/
def wait (d : Duration) : Nat :=
  min d.nanos longestWait.nanos

def micros (d : Duration) : Nat :=
  d.nanos / 1000

theorem wait_eq {d : Duration} (short : d.nanos ≤ longestWait.nanos) : d.wait = d.nanos :=
  Nat.min_eq_left short

theorem wait_pos {d : Duration} (positive : 0 < d.nanos) : 0 < d.wait :=
  Nat.lt_min.mpr ⟨positive, by decide⟩

end Duration

end Cohort
