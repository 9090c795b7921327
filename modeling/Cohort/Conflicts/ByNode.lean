import Cohort.Conflicts

/-!
The conflict counts as a table of nodes, each with a table of its objects.

A node enters the table with its first count and leaves it with its last one.
-/

namespace Cohort.Conflicts

structure ByNode where
  nodes : Table NodeId (Table ObjectId Nat)
  downs : Std.ExtTreeSet NodeId

namespace ByNode

instance : EmptyCollection ByNode := ⟨∅, ∅⟩

instance : Inhabited ByNode := ⟨∅⟩

def record (c : ByNode) (w : Window) (node : NodeId) (object : ObjectId) :
    Except Fault (Bool × ByNode × Window) :=
  if ObjectId.isAbsent object then .error (.argument .absentConflict)
  else
    let entry := c.nodes[node]?
    if c.downs.contains node then .ok (false, c, w)
    else
      let counts := entry.getD ∅
      let counts := counts.insert object (counts.getD object 0 + 1)
      .ok (true, { c with nodes := c.nodes.insert node counts }, w.recordConflict node object)

def removeNode (c : ByNode) (node : NodeId) : ByNode where
  nodes := c.nodes.erase node
  downs := c.downs.insert node

def settleObject (state : Nat × Table ObjectId Nat) (entry : ObjectId × Nat) :
    Nat × Table ObjectId Nat :=
  let (cleared, counts) := state
  let (object, n) := entry
  let remaining := (counts[object]?.map (· - n)).getD 0
  if remaining = 0 then
    (if counts.contains object then cleared + 1 else cleared, counts.erase object)
  else (cleared, counts.insert object remaining)

def dropEmpty (c : ByNode) (node : NodeId) : ByNode :=
  if c.nodes[node]?.any (·.isEmpty) then { c with nodes := c.nodes.erase node } else c

/-- Subtract what expired for a node. A node that is not in the table is passed over, and one that
is left without counts leaves it. -/
def expireNode (state : Nat × ByNode) (node : NodeId) (objects : List (ObjectId × Nat)) :
    Nat × ByNode :=
  let (cleared, c) := state
  match c.nodes[node]? with
  | none => state
  | some counts =>
    let (cleared, counts) := objects.foldl settleObject (cleared, counts)
    (cleared, dropEmpty { c with nodes := c.nodes.insert node counts } node)

def expire (c : ByNode) (expired : List (NodeId × List (ObjectId × Nat))) : Nat × ByNode :=
  expired.foldl (fun state (node, objects) => expireNode state node objects) (0, c)

def count (c : ByNode) (node : NodeId) (object : ObjectId) : Nat :=
  (c.nodes[node]?.bind (·[object]?)).getD 0

def containsNode (c : ByNode) (node : NodeId) : Bool :=
  c.nodes.contains node

def nodeCount (c : ByNode) : Nat :=
  c.nodes.size

def downCount (c : ByNode) : Nat :=
  c.downs.size

def summary (c : ByNode) : List (NodeId × List (ObjectId × Nat)) :=
  c.nodes.toList.map fun (node, counts) => (node, counts.toList)

theorem count_eq (c : ByNode) (node : NodeId) (object : ObjectId) :
    c.count node object = (c.nodes.getD node ∅).getD object 0 := by
  rw [count, Std.ExtTreeMap.getD_eq_getD_getElem?, Std.ExtTreeMap.getD_eq_getD_getElem?]
  cases c.nodes[node]? <;> simp

end ByNode

end Cohort.Conflicts
