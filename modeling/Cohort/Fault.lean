import Cohort.Name

/-!
What can go wrong, by cause, and how each cause is worded.
-/

namespace Cohort

inductive ArgumentFault where
  | absentIdentity
  | absentAccess (identity : Identity)
  | absentConflict
  | nodeCount (vertices nodes : Nat)
  | nodeOrder (position : Nat) (identity : Identity)
  | other (reason : String)
  deriving DecidableEq, Repr

inductive SettingsFault where
  | noPeriods
  | noIterations
  | noInterval
  | noPruneInterval
  | other (reason : String)
  deriving DecidableEq, Repr

inductive Fault where
  | argument (cause : ArgumentFault)
  | settings (cause : SettingsFault)
  | observer (reason : String)
  | logging (reason : String)
  | noWorker
  deriving DecidableEq, Repr

/-- A number that is too large: for a 64-bit word, by the operation that made it, or for the room
that so many things would take. -/
inductive Overflow where
  | sum
  | product
  | carry
  | capacity
  deriving DecidableEq, Repr

/-- Why something that can be refused and that counts in words has no result. -/
inductive Failure where
  | refused (cause : Fault)
  | overflow (cause : Overflow)
  deriving DecidableEq, Repr

def ArgumentFault.reason : ArgumentFault → String
  | absentIdentity => "identity must not be absent"
  | absentAccess identity =>
    "access set for " ++ identity ++ " contains an absent object id"
  | absentConflict => "conflict object id must not be absent"
  | nodeCount vertices nodes =>
    "expected " ++ Nat.repr vertices ++ " label nodes, got " ++ Nat.repr nodes
  | nodeOrder position identity =>
    "label node " ++ Nat.repr position ++ " (" ++ identity ++
      ") does not match the vertex order"
  | other reason => reason

def SettingsFault.reason : SettingsFault → String
  | noPeriods => "period count must be at least 1"
  | noIterations => "max iterations must be at least 1"
  | noInterval => "snapshot interval must be non-zero"
  | noPruneInterval => "prune interval must be non-zero"
  | other reason => reason

def Fault.message : Fault → String
  | argument cause => "Invalid argument: " ++ cause.reason
  | settings cause => "Invalid configuration: " ++ cause.reason
  | observer reason => "Monitor registration failed: " ++ reason
  | logging reason => "Logging initialization failed: " ++ reason
  | noWorker => "Prune worker unavailable"

def Overflow.message : Overflow → String
  | sum => "attempt to add with overflow"
  | product => "attempt to multiply with overflow"
  | carry => "overflow in Duration::new"
  | capacity => "capacity overflow"

theorem bind_eq_ok {ε α β : Type} {x : Except ε α} {f : α → Except ε β} {b : β} :
    x >>= f = .ok b ↔ ∃ a, x = .ok a ∧ f a = .ok b := by
  cases x <;> simp [bind, Except.bind]

end Cohort
