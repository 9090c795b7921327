import Cohort.AccessGraph
import Cohort.SharingGraph

/-!
From accesses to shared use: two identities share as much of an object as the one that used it
less, and the weight of their edge is the sum over the objects they both used.
-/

namespace Cohort

namespace AccessGraph

/-- What one identity shares with the identities after it, object by object. Every pair is thus
met from one side only. -/
def sharedBy (g : AccessGraph) (name : Identity) : List (Identity × Weight) :=
  (g.identityEdges name).flatMap fun (object, use) =>
    ((g.objectEdges object).filter fun other => name < other.1).map fun (other, otherUse) =>
      (other, min use otherUse)

def shares (g : AccessGraph) (name : Identity) : Tally Identity :=
  .ofList (g.sharedBy name)

def shareDraft (g : AccessGraph) (names : List Identity) : SharingGraph.Draft :=
  names.foldl (fun draft name =>
    (g.shares name).entries.foldl (fun draft (other, weight) => draft.addLink name other weight)
      (draft.addVertex name)) ∅

/-- The graph of shared use; identities that share nothing stay as isolated vertices. -/
def project (g : AccessGraph) : Except Overflow SharingGraph :=
  (g.shareDraft g.identities).build

end AccessGraph

end Cohort
