import Cohort.Group
import Cohort.Tally.Share
import Cohort.Weight

/-!
The graph of shared use: identities joined by how much use of objects they share.

The vertices stand in the order of their names and are addressed by position. A draft collects
vertices and links in any order; the graph made from it does not depend on that order.
-/

namespace Cohort

structure Link where
  left : Nat
  right : Nat
  weight : Weight
  deriving DecidableEq, Repr

namespace Link

def seenFrom (link : Link) (position : Nat) : Option (Nat × Weight) :=
  if link.left = position then some (link.right, link.weight)
  else if link.right = position then some (link.left, link.weight)
  else none

end Link

def rowOf (links : List Link) (position : Nat) : List (Nat × Weight) :=
  links.filterMap (·.seenFrom position)

def Link.toRows (link : Link) (rows : Array (List (Nat × Weight))) :
    Array (List (Nat × Weight)) :=
  let rows := rows.modify link.left fun row => (link.right, link.weight) :: row
  if link.left = link.right then rows
  else rows.modify link.right fun row => (link.left, link.weight) :: row

def rowsOf (count : Nat) (links : List Link) : Array (List (Nat × Weight)) :=
  links.foldr Link.toRows (Array.replicate count [])

theorem getElem?_rowsOf (count : Nat) (links : List Link) (position : Nat) :
    (rowsOf count links)[position]? =
      if position < count then some (rowOf links position) else none := by
  induction links with
  | nil => simp [rowsOf, rowOf, Array.getElem?_replicate]
  | cons link rest ih =>
    change (link.toRows (rowsOf count rest))[position]? = _
    have row : rowOf (link :: rest) position =
        (link.seenFrom position).toList ++ rowOf rest position := by
      unfold rowOf
      rw [List.filterMap_cons]
      cases link.seenFrom position <;> rfl
    rw [row]
    unfold Link.toRows Link.seenFrom
    by_cases left : link.left = position <;> by_cases right : link.right = position <;>
      by_cases loop : link.left = link.right <;>
      by_cases inside : position < count <;>
      simp_all [Array.getElem?_modify]

/-- Vertices and edges; the rows of neighbours are kept so that each is found at once. -/
structure SharingGraph where
  vertices : Array Identity
  links : List Link
  rows : Array (List (Nat × Weight)) := rowsOf vertices.size links
  rows_eq : rows = rowsOf vertices.size links := by rfl

namespace SharingGraph

instance : EmptyCollection SharingGraph := ⟨{ vertices := #[], links := [] }⟩

instance : Inhabited SharingGraph := ⟨∅⟩

theorem ext {g h : SharingGraph} (vertices : g.vertices = h.vertices)
    (links : g.links = h.links) : g = h := by
  obtain ⟨_, _, _, rfl⟩ := g
  obtain ⟨_, _, _, rfl⟩ := h
  cases vertices; cases links; rfl

instance : DecidableEq SharingGraph := fun g h =>
  if same : g.vertices = h.vertices ∧ g.links = h.links then .isTrue (ext same.1 same.2)
  else .isFalse fun equal => same (by simp [equal])

def vertexCount (g : SharingGraph) : Nat :=
  g.vertices.size

def edgeCount (g : SharingGraph) : Nat :=
  g.links.length

def isEmpty (g : SharingGraph) : Bool :=
  g.vertices.isEmpty

def identity? (g : SharingGraph) (position : Nat) : Option Identity :=
  g.vertices[position]?

def indexOf? (g : SharingGraph) (name : Identity) : Option Nat :=
  g.vertices.idxOf? name

def neighbours (g : SharingGraph) (position : Nat) : List (Nat × Weight) :=
  g.rows[position]?.getD []

theorem neighbours_eq (g : SharingGraph) (position : Nat) :
    g.neighbours position =
      if position < g.vertexCount then rowOf g.links position else [] := by
  unfold neighbours vertexCount
  rw [g.rows_eq, getElem?_rowsOf]
  split <;> rfl

def degree (g : SharingGraph) (position : Nat) : Nat :=
  (g.neighbours position).length

def weightedDegree (g : SharingGraph) (position : Nat) : Weight :=
  addUp ((g.neighbours position).map (·.2))

def edgeWeight? (g : SharingGraph) (first second : Identity) : Option Weight := do
  let i ← g.indexOf? first
  let j ← g.indexOf? second
  (g.neighbours i).lookup j

def totalWeight (g : SharingGraph) : Weight :=
  addUp (g.links.map (·.weight))

/-- Vertices and weighted pairs of names, before they are put in order. -/
structure Draft where
  vertices : Roster
  pairs : List ((Identity × Identity) × Weight)

namespace Draft

instance : EmptyCollection Draft := ⟨∅, []⟩

instance : Inhabited Draft := ⟨∅⟩

def addVertex (d : Draft) (name : Identity) : Draft :=
  { d with vertices := d.vertices.insert name }

def pairOf (first second : Identity) : Identity × Identity :=
  if second < first then (second, first) else (first, second)

theorem pairOf_comm (first second : Identity) : pairOf first second = pairOf second first := by
  unfold pairOf
  split <;> split <;> try rfl
  next before after => exact absurd after (String.lt_asymm before)
  next notBefore notAfter =>
    rw [String.not_lt] at notBefore notAfter
    rw [String.le_antisymm notBefore notAfter]

/-- Add weight between two names; a name is not linked to itself, nor by no weight. -/
def addLink (d : Draft) (first second : Identity) (weight : Weight) : Draft :=
  if first = second ∨ weight = 0 then d
  else
    let d := (d.addVertex first).addVertex second
    { d with pairs := (pairOf first second, weight) :: d.pairs }

def names (d : Draft) : List Identity :=
  d.vertices.toList

def positions (d : Draft) : Table Identity Nat :=
  .ofList d.names.zipIdx

theorem names_ascending (d : Draft) : d.names.Pairwise fun x y => compare x y = .lt :=
  Std.ExtTreeSet.ordered_toList

theorem getElem?_positions {d : Draft} {name : Identity} {position : Nat} :
    d.positions[name]? = some position ↔ d.names[position]? = some name := by
  have distinct : (d.names.zipIdx.map Prod.fst).Nodup := by
    rw [List.zipIdx_map_fst]
    exact nodup_toList d.vertices
  rw [positions, getElem?_ofList_eq_some distinct, List.mem_zipIdx_iff_getElem?]

def weights (d : Draft) : Tally (Identity × Identity) :=
  Tally.ofList d.pairs

def checkPairs (d : Draft) : Except Overflow Unit :=
  if d.weights.entries.all (·.2 < wordBound) then .ok () else .error .sum

/-- The graph of a draft, as long as its total weight fits in a word; no sum of weights on the
way to the total is larger. -/
def build (d : Draft) : Except Overflow SharingGraph := do
  let positions := d.positions
  let links := d.weights.entries.map fun ((first, second), weight) =>
    Link.mk (positions.getD first 0) (positions.getD second 0) weight
  let g : SharingGraph := { vertices := d.names.toArray, links }
  let _ ← inWord .sum g.totalWeight
  return g

end Draft

end SharingGraph

end Cohort
