import Cohort.Random.Draw
import Cohort.SharingGraph

/-!
Labels on the vertices of a graph of shared use, and passes that change them.

A pass visits vertices one by one. A vertex keeps its label while that label is among the
heaviest of its neighbours, and takes one of the heaviest otherwise.
-/

namespace Cohort

open Cohort.Random (Source)

abbrev Labels := Array Label

structure LabelNode where
  identity : Identity
  label : Label
  deriving DecidableEq, Repr

namespace LabelNode

def initial (g : SharingGraph) : List LabelNode :=
  g.vertices.toList.zipIdx.map fun (name, position) => ⟨name, position⟩

def labels (nodes : List LabelNode) : Labels :=
  (nodes.map (·.label)).toArray

def relabel (nodes : List LabelNode) (labels : Labels) : List LabelNode :=
  nodes.zipWith (fun node label => { node with label }) labels.toList

def enrol (rosters : Table Label Roster) (node : LabelNode) : Table Label Roster :=
  rosters.alter node.label fun roster => some ((roster.getD ∅).insert node.identity)

def rosters (nodes : List LabelNode) : Table Label Roster :=
  nodes.foldl enrol ∅

/-- The nodes of each label form a group; groups are in the order of their labels. -/
def groups (nodes : List LabelNode) : List Group :=
  (rosters nodes).toList.map fun (label, members) => ⟨label, members⟩

theorem contains_rosters (nodes : List LabelNode) (label : Label) :
    (rosters nodes).contains label = nodes.any (·.label == label) := by
  have loop (rosters : Table Label Roster) :
      (nodes.foldl enrol rosters).contains label =
        (nodes.any (·.label == label) || rosters.contains label) := by
    induction nodes generalizing rosters with
    | nil => simp
    | cons node rest ih =>
      rw [List.foldl_cons, ih, enrol, Std.ExtTreeMap.contains_alter]
      by_cases same : node.label = label
      · simp [same]
      · simp [same, beq_eq_false_iff_ne.mpr same]
  simp [rosters, loop]

theorem mem_rosters (nodes : List LabelNode) (label : Label) (name : Identity) :
    name ∈ (rosters nodes)[label]?.getD ∅ ↔ ⟨name, label⟩ ∈ nodes := by
  have loop (rosters : Table Label Roster) :
      name ∈ (nodes.foldl enrol rosters)[label]?.getD ∅ ↔
        ⟨name, label⟩ ∈ nodes ∨ name ∈ rosters[label]?.getD ∅ := by
    induction nodes generalizing rosters with
    | nil => simp
    | cons node rest ih =>
      obtain ⟨identity, own⟩ := node
      rw [List.foldl_cons, ih, enrol, Std.ExtTreeMap.getElem?_alter]
      by_cases same : own = label
      · subst same
        simp [Std.ExtTreeSet.mem_insert, @eq_comm _ name identity, or_assoc, or_left_comm]
      · simp [same, Ne.symm same]
  simp [rosters, loop]

end LabelNode

namespace SharingGraph

/-- The labels of the neighbours of a vertex with the weights of the edges to them; neighbours
without a label have no vote. -/
def votes (g : SharingGraph) (labels : Labels) (position : Nat) : List (Label × Weight) :=
  (g.neighbours position).filterMap fun (other, weight) =>
    labels[other]?.map (·, weight)

def ballot (g : SharingGraph) (labels : Labels) (position : Nat) : Tally Label :=
  Tally.ofList (g.votes labels position)

structure Sweep where
  labels : Labels
  source : Source
  changes : Nat

/-- Visit one vertex; a position without a label is skipped. -/
def visit (g : SharingGraph) (sweep : Sweep) (position : Nat) : Sweep :=
  match sweep.labels[position]? with
  | none => sweep
  | some current =>
    let leaders := (g.ballot sweep.labels position).leaders
    if current ∈ leaders then sweep
    else
      match sweep.source.choose leaders with
      | (none, _) => sweep
      | (some label, source) =>
        { labels := sweep.labels.setIfInBounds position label
          source
          changes := sweep.changes + 1 }

def pass (g : SharingGraph) (order : List Nat) (labels : Labels) (source : Source) : Sweep :=
  order.foldl g.visit ⟨labels, source, 0⟩

theorem size_visit (g : SharingGraph) (sweep : Sweep) (position : Nat) :
    (g.visit sweep position).labels.size = sweep.labels.size := by
  unfold visit
  split
  · rfl
  · dsimp only
    split
    · rfl
    · split <;> simp

theorem size_pass (g : SharingGraph) (order : List Nat) (labels : Labels) (source : Source) :
    (g.pass order labels source).labels.size = labels.size := by
  have loop (sweep : Sweep) : (order.foldl g.visit sweep).labels.size = sweep.labels.size := by
    induction order generalizing sweep with
    | nil => rfl
    | cons position rest ih => rw [List.foldl_cons, ih, size_visit]
  exact loop _

end SharingGraph

end Cohort
