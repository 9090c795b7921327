import Cohort.Name
import Cohort.Table

/-!
Groups of identities.
-/

namespace Cohort

abbrev Roster := Std.ExtTreeSet Identity

/-- What a group is called; the vertices that share a label form a group. -/
abbrev Label := Nat

structure Group where
  id : Label
  members : Roster

namespace Group

def ofList (id : Label) (names : List Identity) : Group :=
  ⟨id, .ofList names⟩

def names (g : Group) : List Identity :=
  g.members.toList

def size (g : Group) : Nat :=
  g.members.size

def isEmpty (g : Group) : Bool :=
  g.members.isEmpty

def contains (g : Group) (name : Identity) : Bool :=
  g.members.contains name

def text (g : Group) : String :=
  "group " ++ Nat.repr g.id ++ ": [" ++ ", ".intercalate g.names ++ "]"

theorem mem_names {g : Group} {name : Identity} : name ∈ g.names ↔ name ∈ g.members :=
  Std.ExtTreeSet.mem_toList

theorem length_names {g : Group} : g.names.length = g.size :=
  Std.ExtTreeSet.length_toList

theorem nodup_names (g : Group) : g.names.Nodup :=
  nodup_toList _

end Group

end Cohort
