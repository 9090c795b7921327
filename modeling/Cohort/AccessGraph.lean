import Cohort.Arena
import Cohort.Tally.Share
import Cohort.Weight

/-!
The live graph of accesses: identities on one side, objects on the other.

Vertices and edges live in arenas. An edge weighs as many accesses as it stands for, and it
disappears together with the endpoints that it was the last edge of.
-/

namespace Cohort

inductive Vertex where
  | identity (name : Identity)
  | object (id : ObjectId)
  deriving DecidableEq, Repr, Inhabited

namespace Vertex

def order : Vertex → Vertex → Ordering
  | identity left, identity right => compare left right
  | identity _, object _ => .lt
  | object _, identity _ => .gt
  | object left, object right => compare left right

instance : Ord Vertex := ⟨order⟩

theorem compare_vertex (left right : Vertex) : compare left right = left.order right :=
  rfl

instance : Std.TransOrd Vertex where
  eq_swap {left right} := by
    cases left <;> cases right <;> simp only [compare_vertex, order] <;>
      first | rfl | exact Std.OrientedCmp.eq_swap
  isLE_trans {left middle right} first second := by
    cases left <;> cases middle <;> cases right <;>
      simp only [compare_vertex, order] at first second ⊢ <;>
      first
      | rfl
      | exact Std.TransCmp.isLE_trans first second
      | exact absurd first (by decide)
      | exact absurd second (by decide)

instance : Std.LawfulEqOrd Vertex where
  compare_self := by simp
  eq_of_compare {left right} same := by
    cases left <;> cases right <;> simp_all [compare_vertex, order]

def name? : Vertex → Option Identity
  | identity name => some name
  | object _ => none

def object? : Vertex → Option ObjectId
  | identity _ => none
  | object id => some id

end Vertex

abbrev VertexKey := Key

abbrev EdgeKey := Key

/-- A vertex with the keys of its edges, oldest first. -/
structure Hub where
  vertex : Vertex
  edges : Array EdgeKey

structure AccessEdge where
  identity : VertexKey
  object : VertexKey
  weight : Weight

/-- The graph, with indices from vertices to their keys and from pairs of vertex keys to edges. -/
structure AccessGraph where
  hubs : Arena Hub
  edges : Arena AccessEdge
  places : Table Vertex VertexKey
  index : Table (VertexKey × VertexKey) EdgeKey

inductive Decay where
  | missing
  | decremented (weight : Weight)
  | removed (endpoints : Nat)
  deriving DecidableEq, Repr

namespace AccessGraph

instance : EmptyCollection AccessGraph := ⟨∅, ∅, ∅, ∅⟩

instance : Inhabited AccessGraph := ⟨∅⟩

def ensure (g : AccessGraph) (vertex : Vertex) : VertexKey × AccessGraph :=
  match g.places[vertex]? with
  | some key => (key, g)
  | none =>
    let (key, hubs) := g.hubs.insert ⟨vertex, #[]⟩
    (key, { g with hubs, places := g.places.insert vertex key })

def attach (hubs : Arena Hub) (vertex : VertexKey) (edge : EdgeKey) : Arena Hub :=
  hubs.modify vertex fun hub => { hub with edges := hub.edges.push edge }

def connect (g : AccessGraph) (identity object : VertexKey) : EdgeKey × AccessGraph :=
  let (key, edges) := g.edges.insert ⟨identity, object, Weight.initial⟩
  (key, { g with
    hubs := attach (attach g.hubs identity key) object key
    edges
    index := g.index.insert (identity, object) key })

/-- Count one access: the edge gains one unit, and is made at need. -/
def increment (g : AccessGraph) (name : Identity) (object : ObjectId) :
    EdgeKey × AccessGraph :=
  let (left, g) := g.ensure (.identity name)
  let (right, g) := g.ensure (.object object)
  match g.index[(left, right)]?.filter fun key => (g.edges.get? key).isSome with
  | some key =>
    (key, { g with edges := g.edges.modify key fun edge =>
      { edge with weight := edge.weight + 1 } })
  | none => g.connect left right

/-- Take an edge off the list of a vertex, and remove a vertex left without edges. -/
def detach (g : AccessGraph) (vertex : VertexKey) (edge : EdgeKey) : Nat × AccessGraph :=
  let hubs := g.hubs.modify vertex fun hub =>
    { hub with edges := hub.edges.filter (· ≠ edge) }
  match hubs.get? vertex with
  | none => (0, { g with hubs })
  | some hub =>
    if hub.edges.isEmpty then
      (1, { g with hubs := hubs.remove vertex, places := g.places.erase hub.vertex })
    else (0, { g with hubs })

/-- Subtract an amount from an edge, and remove an edge whose weight is used up. -/
def decay (g : AccessGraph) (key : EdgeKey) (amount : Nat) : Decay × AccessGraph :=
  match g.edges.get? key with
  | none => (.missing, g)
  | some edge =>
    if amount < edge.weight then
      let weight := edge.weight.subtract amount
      (.decremented weight,
        { g with edges := g.edges.modify key fun edge => { edge with weight } })
    else
      let g := { g with
        edges := g.edges.remove key
        index := g.index.erase (edge.identity, edge.object) }
      let (first, g) := g.detach edge.identity key
      let (second, g) := g.detach edge.object key
      (.removed (first + second), g)

def nameOf (g : AccessGraph) (key : VertexKey) : Option Identity :=
  (g.hubs.get? key).bind (·.vertex.name?)

def objectOf (g : AccessGraph) (key : VertexKey) : Option ObjectId :=
  (g.hubs.get? key).bind (·.vertex.object?)

def hub? (g : AccessGraph) (vertex : Vertex) : Option Hub :=
  g.places[vertex]?.bind g.hubs.get?

def incident (g : AccessGraph) (vertex : Vertex) : List AccessEdge :=
  match g.hub? vertex with
  | none => []
  | some hub => hub.edges.toList.filterMap g.edges.get?

def identityEdges (g : AccessGraph) (name : Identity) : List (ObjectId × Weight) :=
  (g.incident (.identity name)).filterMap fun edge =>
    (g.objectOf edge.object).map (·, edge.weight)

def objectEdges (g : AccessGraph) (object : ObjectId) : List (Identity × Weight) :=
  (g.incident (.object object)).filterMap fun edge =>
    (g.nameOf edge.identity).map (·, edge.weight)

def edgeList (g : AccessGraph) : List (Identity × ObjectId × Weight) :=
  g.edges.values.filterMap fun edge => do
    let name ← g.nameOf edge.identity
    let object ← g.objectOf edge.object
    return (name, object, edge.weight)

def weights (g : AccessGraph) : Table (Identity × ObjectId) Weight :=
  .ofList (g.edgeList.map fun (name, object, weight) => ((name, object), weight))

def vertexList (g : AccessGraph) : List Vertex :=
  g.hubs.values.map (·.vertex)

def identities (g : AccessGraph) : List Identity :=
  g.places.keys.filterMap Vertex.name?

def objects (g : AccessGraph) : List ObjectId :=
  g.places.keys.filterMap Vertex.object?

def contains (g : AccessGraph) (vertex : Vertex) : Bool :=
  g.places.contains vertex

def degree (g : AccessGraph) (vertex : Vertex) : Nat :=
  match g.hub? vertex with
  | none => 0
  | some hub => hub.edges.size

def key? (g : AccessGraph) (name : Identity) (object : ObjectId) : Option EdgeKey := do
  let left ← g.places[Vertex.identity name]?
  let right ← g.places[Vertex.object object]?
  g.index[(left, right)]?

def weightOf (g : AccessGraph) (key : EdgeKey) : Option Weight :=
  (g.edges.get? key).map (·.weight)

def edgeWeight (g : AccessGraph) (name : Identity) (object : ObjectId) : Option Weight :=
  (g.key? name object).bind g.weightOf

def ends? (g : AccessGraph) (key : EdgeKey) : Option (Identity × ObjectId) := do
  let edge ← g.edges.get? key
  return (← g.nameOf edge.identity, ← g.objectOf edge.object)

/-- Counts by edge key as counts by endpoints; keys that do not resolve are left out. -/
def byEnds (g : AccessGraph) (counts : Tally Key) : Tally (Identity × ObjectId) :=
  Tally.ofList (counts.entries.filterMap fun (key, n) => (g.ends? key).map (·, n))

def identityCount (g : AccessGraph) : Nat :=
  g.identities.length

def objectCount (g : AccessGraph) : Nat :=
  g.objects.length

def vertexCount (g : AccessGraph) : Nat :=
  g.hubs.size

def edgeCount (g : AccessGraph) : Nat :=
  g.edges.size

def isEmpty (g : AccessGraph) : Bool :=
  g.vertexCount == 0

def objectUse (g : AccessGraph) : List (ObjectId × List (Identity × Weight)) :=
  g.objects.map fun object => (object, (Std.ExtTreeMap.ofList (g.objectEdges object)).toList)

theorem decay_of_weightOf_eq_none {g : AccessGraph} {key : EdgeKey} {amount : Nat}
    (gone : g.weightOf key = none) : g.decay key amount = (.missing, g) := by
  have unresolved : g.edges.get? key = none := by simpa [weightOf] using gone
  simp [decay, unresolved]

end AccessGraph

end Cohort
