import Cohort.SharingGraph

/-!
Modularity: how much of the weight lies inside groups, beyond what the weights at their vertices
would let one expect.
-/

namespace Cohort

namespace SharingGraph

def lastGroup (groups : List Group) (name : Identity) : Option Nat :=
  (groups.zipIdx.filter fun (group, _) => group.contains name).getLast?.map (·.2)

def settle (places : Table Identity Nat) (placed : Group × Nat) : Table Identity Nat :=
  placed.1.names.foldl (fun places name => places.insert name placed.2) places

def groupPlaces (groups : List Group) : Table Identity Nat :=
  groups.zipIdx.foldl settle ∅

theorem getElem?_settle (places : Table Identity Nat) (placed : Group × Nat) (name : Identity) :
    (settle places placed)[name]? =
      if placed.1.contains name then some placed.2 else places[name]? := by
  have loop (names : List Identity) (places : Table Identity Nat) :
      (names.foldl (fun places name => places.insert name placed.2) places)[name]? =
        if name ∈ names then some placed.2 else places[name]? := by
    induction names generalizing places with
    | nil => simp
    | cons first rest ih =>
      rw [List.foldl_cons, ih, Std.ExtTreeMap.getElem?_insert]
      by_cases later : name ∈ rest
      · simp [later]
      · by_cases same : first = name
        · simp [same]
        · simp [later, same, Ne.symm same]
  unfold settle Group.contains
  rw [loop]
  simp [Group.names, Std.ExtTreeSet.mem_toList]

theorem getElem?_groupPlaces (groups : List Group) (name : Identity) :
    (groupPlaces groups)[name]? = lastGroup groups name := by
  have loop (placed : List (Group × Nat)) (places : Table Identity Nat) :
      (placed.foldl settle places)[name]? =
        ((placed.filter fun (group, _) => group.contains name).getLast?.map (·.2)).or
          places[name]? := by
    induction placed generalizing places with
    | nil => simp
    | cons first rest ih =>
      rw [List.foldl_cons, ih, getElem?_settle, List.filter_cons]
      by_cases inside : first.1.contains name
      · simp only [inside, if_true, List.getLast?_cons]
        cases (rest.filter fun (group, _) => group.contains name).getLast? <;> rfl
      · simp [inside]
  unfold groupPlaces lastGroup
  rw [loop]
  simp

/-- The group position of every vertex; a vertex in several groups counts for the last. -/
def assignment (g : SharingGraph) (groups : List Group) : Array (Option Nat) :=
  let places := groupPlaces groups
  g.vertices.map fun name => places[name]?

theorem assignment_eq (g : SharingGraph) (groups : List Group) :
    g.assignment groups = g.vertices.map (lastGroup groups) := by
  simp [assignment, getElem?_groupPlaces]

def groupOf (assigned : Array (Option Nat)) (link : Link) : Option Nat := do
  let left ← assigned[link.left]?.join
  let right ← assigned[link.right]?.join
  if left = right then some left else none

def addInternal (assigned : Array (Option Nat)) (sums : Array Weight) (link : Link) :
    Except Overflow (Array Weight) :=
  match groupOf assigned link with
  | none => .ok sums
  | some group => do
    let double ← inWord .product (2 * link.weight)
    let sum ← inWord .sum (sums.getD group 0 + double)
    return sums.setIfInBounds group sum

/-- Twice the weight of the edges inside each group. -/
def internalSums (g : SharingGraph) (groups : List Group) : Except Overflow (Array Weight) :=
  let assigned := g.assignment groups
  g.links.foldlM (addInternal assigned) (Array.replicate groups.length 0)

def incidentSums (g : SharingGraph) (groups : List Group) : Except Overflow (Array Weight) :=
  let assigned := g.assignment groups
  assigned.toList.zipIdx.foldlM (fun sums (group, position) =>
    match group with
    | none => .ok sums
    | some group => do
      let sum ← inWord .sum (sums.getD group 0 + g.weightedDegree position)
      return sums.setIfInBounds group sum) (Array.replicate groups.length 0)

def toFloat (weight : Weight) : Float :=
  weight.toUInt64.toFloat

def scoreOf (doubled : Float) (internal incident : Weight) : Float :=
  let share := toFloat incident / doubled
  toFloat internal / doubled - share * share

/-- The sum over all groups, from the first to the last and starting from negative zero; a graph
without weight scores zero. -/
def modularity (g : SharingGraph) (groups : List Group) : Except Overflow Float :=
  if g.totalWeight = 0 then .ok 0.0
  else do
    let internal ← g.internalSums groups
    let incident ← g.incidentSums groups
    let doubled := 2.0 * toFloat g.totalWeight
    return (internal.toList.zip incident.toList).foldl
      (fun sum (internal, incident) => sum + scoreOf doubled internal incident) (-0.0)

end SharingGraph

end Cohort
