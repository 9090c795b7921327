import Cohort.SharingGraph

/-!
Where the identities of a projection stand.

Projections are numbered in the order in which they begin, and may end in another one. Kept are
the places of the latest of them, so one that ends late does not replace a newer one.
-/

namespace Cohort

structure Handle where
  identity : Identity
  position : Nat
  deriving DecidableEq, Repr

def SharingGraph.handle? (g : SharingGraph) (name : Identity) : Option Handle :=
  (g.indexOf? name).map fun position => ⟨name, position⟩

/-- The number of projections that have begun, the number of the one whose places are kept, which
is zero as long as there is none, and these places. -/
structure Places where
  begun : Nat
  edition : Nat
  handles : Table Identity Handle

namespace Places

instance : EmptyCollection Places := ⟨⟨0, 0, ∅⟩⟩

def announce (p : Places) : Nat × Places :=
  (p.begun + 1, { p with begun := p.begun + 1 })

def handlesOf (g : SharingGraph) : Table Identity Handle :=
  .ofList (g.vertices.toList.zipIdx.map fun (name, position) => (name, Handle.mk name position))

/-- Keep the places of the projection of the given number, unless those of a later one are kept;
the first component tells whether they are. -/
def install (p : Places) (number : Nat) (g : SharingGraph) : Bool × Places :=
  if number < p.edition then (false, p)
  else (true, { p with edition := number, handles := handlesOf g })

end Places

end Cohort
