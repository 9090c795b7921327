/-!
Names of the three parties: identities use objects, and nodes force objects out of a cache.

Identities are ordered by code points, objects and nodes by their numbers.
-/

namespace Cohort

/-- The name of something that accesses objects; the empty name stands for nobody. -/
abbrev Identity := String

/-- The number of an object; zero stands for no object. -/
abbrev ObjectId := Nat

abbrev NodeId := Nat

/-- The digits of a number, filled with zeros on the left up to a least width. -/
def paddedDigits (base width n : Nat) : List Char :=
  let digits := Nat.toDigits base n
  List.replicate (width - digits.length) '0' ++ digits

namespace Identity

def isAbsent (name : Identity) : Bool :=
  name == ""

def inOrder (names : List Identity) : List Identity :=
  names.mergeSort fun x y => !(y < x)

def debugText (name : Identity) : String :=
  "Identity(" ++ name ++ ")"

end Identity

namespace ObjectId

def isAbsent (object : ObjectId) : Bool :=
  object == 0

def text (object : ObjectId) : String :=
  String.ofList (paddedDigits 16 16 object)

def debugText (object : ObjectId) : String :=
  "Object(" ++ text object ++ ")"

end ObjectId

namespace NodeId

def text (node : NodeId) : String :=
  Nat.repr node

def debugText (node : NodeId) : String :=
  "Node(" ++ text node ++ ")"

end NodeId

end Cohort
