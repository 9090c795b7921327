import Cohort.Conflicts
import Cohort.Counters
import Cohort.Places
import Cohort.Projection

/-!
The live state: accesses and conflicts, and the window that both age out through.

Every increment of the graph is noted in the open period under the key of its edge, and a period
that leaves the window is subtracted again.
-/

namespace Cohort

structure Decayed where
  decremented : Nat
  removed : Nat
  vertices : Nat
  deriving DecidableEq, Repr, Inhabited

namespace Decayed

def zero : Decayed := ⟨0, 0, 0⟩

def note (d : Decayed) : Decay → Decayed
  | .missing => d
  | .decremented _ => { d with decremented := d.decremented + 1 }
  | .removed endpoints =>
    { d with removed := d.removed + 1, vertices := d.vertices + endpoints }

end Decayed

namespace AccessGraph

def touch (g : AccessGraph) (name : Identity) : List ObjectId → List EdgeKey × AccessGraph
  | [] => ([], g)
  | object :: rest =>
    let (key, g) := g.increment name object
    let (keys, g) := g.touch name rest
    (key :: keys, g)

def expire (g : AccessGraph) (expired : List (EdgeKey × Nat)) : Decayed × AccessGraph :=
  expired.foldl (fun (decayed, g) (key, n) =>
    let (outcome, g) := g.decay key n
    (decayed.note outcome, g)) (.zero, g)

end AccessGraph

structure PruneReport where
  consumed : Bool
  edges : Decayed
  conflicts : Nat
  deriving DecidableEq, Repr, Inhabited

/-- The live graph, where each identity stood at the latest projection, the window, the live
conflicts, and the counters. -/
structure Tracker where
  graph : AccessGraph
  places : Places
  window : Window
  conflicts : Conflicts
  counters : Counters

namespace Tracker

instance : Inhabited Tracker := ⟨⟨∅, ∅, default, ∅, .zero⟩⟩

def ofCount (count : Nat) : Except Failure Tracker := do
  let window ← Window.ofCount count
  return { graph := ∅, places := ∅, window, conflicts := ∅, counters := .zero }

def accessSet (objects : List ObjectId) : List ObjectId :=
  (Std.ExtTreeSet.ofList objects).toList

/-- Count one access of an identity to each object of a set. Absent names are refused before
anything is counted. -/
def record (t : Tracker) (name : Identity) (objects : List ObjectId) : Except Fault Tracker :=
  let set := accessSet objects
  if Identity.isAbsent name then .error (.argument .absentIdentity)
  else if set.any ObjectId.isAbsent then .error (.argument (.absentAccess name))
  else
    let (keys, graph) := t.graph.touch name set
    .ok { t with
      graph
      window := t.window.recordEdges keys
      counters := t.counters.countUpdate }

/-- Count a conflict; the first component tells whether it was accepted. -/
def recordConflict (t : Tracker) (node : NodeId) (object : ObjectId) :
    Except Fault (Bool × Tracker) := do
  let (accepted, conflicts, window) ← t.conflicts.record t.window node object
  return (accepted, { t with conflicts, window })

def removeNode (t : Tracker) (node : NodeId) : Tracker :=
  { t with conflicts := t.conflicts.removeNode node }

/-- Project the live graph, and remember where its identities stand. -/
def fold (t : Tracker) : Except Overflow (SharingGraph × Tracker) := do
  let (number, places) := t.places.announce
  let shared ← t.graph.project
  return (shared, { t with
    places := (places.install number shared).2
    counters := t.counters.countFold })

def handle? (t : Tracker) (name : Identity) : Option Handle :=
  t.places.handles[name]?

def rotate (t : Tracker) : Option Period × Tracker :=
  let (expired, window) := t.window.rotate
  (expired, { t with window })

/-- Rotate the window and subtract what leaves it from the live state. -/
def prune (t : Tracker) : PruneReport × Tracker :=
  let (expired, t) := t.rotate
  let t := { t with counters := t.counters.countPrune }
  match expired with
  | none => (⟨false, .zero, 0⟩, t)
  | some period =>
    let (edges, graph) := t.graph.expire period.edges.entries
    let (cleared, conflicts) := t.conflicts.expire period.conflicts.entries
    (⟨true, edges, cleared⟩, { t with graph, conflicts })

theorem prune_of_none {t : Tracker} (kept : t.window.rotate.1 = none) :
    t.prune = (⟨false, .zero, 0⟩,
      { t with window := t.window.rotate.2, counters := t.counters.countPrune }) := by
  simp [prune, rotate, kept]

theorem prune_of_some {t : Tracker} {period : Period} (expired : t.window.rotate.1 = some period) :
    t.prune =
      (⟨true, (t.graph.expire period.edges.entries).1,
          (t.conflicts.expire period.conflicts.entries).1⟩,
        { t with
          graph := (t.graph.expire period.edges.entries).2
          window := t.window.rotate.2
          conflicts := (t.conflicts.expire period.conflicts.entries).2
          counters := t.counters.countPrune }) := by
  simp [prune, rotate, expired]

end Tracker

end Cohort
