import Cohort.Fault

/-!
Weights of edges, and arithmetic that stays inside a 64-bit word.
-/

namespace Cohort

abbrev Weight := Nat

def wordBound : Nat := 18446744073709551616

/-- A number that fits in a word; otherwise the operation that made it failed. -/
def inWord (operation : Overflow) (n : Nat) : Except Overflow Nat :=
  if n < wordBound then .ok n else .error operation

@[simp] theorem inWord_eq_ok {operation : Overflow} {n m : Nat} :
    inWord operation n = .ok m ↔ n < wordBound ∧ n = m := by
  unfold inWord
  split
  next fits => simp [fits]
  next => simp; omega

@[simp] theorem inWord_eq_error {operation cause : Overflow} {n : Nat} :
    inWord operation n = .error cause ↔ wordBound ≤ n ∧ operation = cause := by
  unfold inWord
  split
  next fits => simp; omega
  next => simp; omega

namespace Weight

def initial : Weight := 1

def add (weight amount : Weight) : Except Overflow Weight :=
  inWord .sum (weight + amount)

def increment (weight : Weight) : Except Overflow Weight :=
  weight.add 1

def subtract (weight amount : Weight) : Weight :=
  weight - amount

end Weight

end Cohort
