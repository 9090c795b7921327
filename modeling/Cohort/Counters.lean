import Cohort.Duration

/-!
Counters of the work done. They are words and wrap around.
-/

namespace Cohort

structure Counters where
  updates : UInt64
  prunes : UInt64
  folds : UInt64
  micros : UInt64
  deriving DecidableEq, Repr, Inhabited

namespace Counters

def zero : Counters := ⟨0, 0, 0, 0⟩

def countUpdate (c : Counters) : Counters :=
  { c with updates := c.updates + 1 }

def countPrune (c : Counters) : Counters :=
  { c with prunes := c.prunes + 1 }

def countFold (c : Counters) : Counters :=
  { c with folds := c.folds + 1 }

/-- Add the whole microseconds of a time, at most as many as fit in a word. -/
def spend (c : Counters) (time : Duration) : Counters :=
  { c with micros := c.micros + UInt64.ofNat (min time.micros (wordBound - 1)) }

def timeSpent (c : Counters) : Duration :=
  .ofMicros c.micros.toNat

end Counters

end Cohort
