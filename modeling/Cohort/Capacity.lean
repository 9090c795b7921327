import Cohort.Fault

/-!
Room for many things of one kind: they take less than half of all addresses.
-/

namespace Cohort

def roomBound : Nat := 9223372036854775808

/-- Make sure of the room for a number of things that take the given number of bytes each. -/
def room (bytes count : Nat) : Except Overflow Unit :=
  if bytes * count < roomBound then .ok () else .error .capacity

@[simp] theorem room_eq_ok {bytes count : Nat} {done : Unit} :
    room bytes count = .ok done ↔ bytes * count < roomBound := by
  unfold room
  split <;> simp [*]

end Cohort
