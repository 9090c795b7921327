import Cohort.Group
import Cohort.Tally.Share

/-!
How far two families of groups agree, by the pairs of identities that they put together.
-/

namespace Cohort

def pairCount (n : Nat) : Nat :=
  n * (n - 1) / 2

/-- Pairs put together by both families and by at least one of them. -/
structure Agreement where
  both : Nat
  total : Nat
  deriving DecidableEq, Repr

namespace Agreement

/-- The group that each name is in; the last one counts. -/
def membership (groups : List Group) : Table Identity Label :=
  .ofList (groups.flatMap fun group => group.names.map (·, group.id))

def sharedPairs (other : Table Identity Label) (group : Group) : Nat :=
  addUp ((Tally.ofList (group.names.filterMap fun name =>
    other[name]?.map (·, 1))).entries.map fun (_, n) => pairCount n)

def pairs (groups : List Group) : Nat :=
  addUp (groups.map fun group => pairCount group.size)

def ofGroups (first second : List Group) : Agreement :=
  let both := addUp (first.map (sharedPairs (membership second)))
  { both, total := both + (pairs first - both) + (pairs second - both) }

/-- The share of the pairs on which the families agree; one when there is no pair. -/
def ratio (a : Agreement) : Float :=
  if a.total = 0 then 1.0 else a.both.toUInt64.toFloat / a.total.toUInt64.toFloat

end Agreement

def jaccard (first second : List Group) : Float :=
  (Agreement.ofGroups first second).ratio

end Cohort
