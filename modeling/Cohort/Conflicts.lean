import Cohort.Window
import Std.Data.ExtTreeSet

/-!
How often each node forced each object out of the cache, within the window.

A node that went down keeps no counts and gains none.
-/

namespace Cohort

structure Conflicts where
  counts : Tally (NodeId × ObjectId)
  downs : Std.ExtTreeSet NodeId
  deriving DecidableEq

namespace Conflicts

instance : EmptyCollection Conflicts := ⟨∅, ∅⟩

instance : Inhabited Conflicts := ⟨∅⟩

def isDown (c : Conflicts) (node : NodeId) : Bool :=
  c.downs.contains node

/-- Count a report, here and in the open period. A report on a node that is down is dropped,
which the first component of the answer tells. -/
def record (c : Conflicts) (w : Window) (node : NodeId) (object : ObjectId) :
    Except Fault (Bool × Conflicts × Window) :=
  if ObjectId.isAbsent object then .error (.argument .absentConflict)
  else if c.isDown node then .ok (false, c, w)
  else .ok (true, { c with counts := c.counts.add (node, object) 1 },
    w.recordConflict node object)

def removeNode (c : Conflicts) (node : NodeId) : Conflicts where
  counts := c.counts.filter (·.1 != node)
  downs := c.downs.insert node

/-- Subtract expired counts. The first component of the answer is the number of entries that
reached zero; expired counts of entries that are gone have no effect. -/
def expire (c : Conflicts) (expired : List ((NodeId × ObjectId) × Nat)) : Nat × Conflicts :=
  expired.foldl (fun (cleared, c) (key, n) =>
    let live := c.counts.count key
    (if 0 < live ∧ live ≤ n then cleared + 1 else cleared,
      { c with counts := c.counts.subtract key n })) (0, c)

def count (c : Conflicts) (node : NodeId) (object : ObjectId) : Nat :=
  c.counts.count (node, object)

def nodes (c : Conflicts) : List NodeId :=
  (Std.ExtTreeSet.ofList (c.counts.keys.map (·.1))).toList

def containsNode (c : Conflicts) (node : NodeId) : Bool :=
  c.counts.keys.any (·.1 == node)

def nodeCount (c : Conflicts) : Nat :=
  c.nodes.length

def downCount (c : Conflicts) : Nat :=
  c.downs.size

def countsOf (c : Conflicts) (node : NodeId) : List (ObjectId × Nat) :=
  c.counts.entries.filterMap fun ((other, object), n) =>
    if other = node then some (object, n) else none

def summary (c : Conflicts) : List (NodeId × List (ObjectId × Nat)) :=
  c.nodes.map fun node => (node, c.countsOf node)

@[simp] theorem count_removeNode (c : Conflicts) (node other : NodeId) (object : ObjectId) :
    (c.removeNode node).count other object =
      if other = node then 0 else c.count other object := by
  unfold count removeNode
  rw [Tally.count_filter]
  by_cases same : other = node <;> simp [same]

end Conflicts

end Cohort
