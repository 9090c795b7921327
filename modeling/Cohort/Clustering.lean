import Cohort.Labelling
import Cohort.Modularity
import Cohort.Random.ChaCha

/-!
Groups of identities by repeated passes over the graph of shared use.

The first pass visits the vertices in order. Each later pass shuffles the order of the pass
before it. Passes end with one that changes nothing, or at a cap.
-/

namespace Cohort

open Cohort.Random (Source)

structure Method where
  cap : Nat
  seed : Option Nat
  statistics : Bool
  deriving DecidableEq, Repr, Inhabited

structure Outcome where
  iterations : Nat
  converged : Bool
  firstChanges : Nat
  deriving DecidableEq, Repr, Inhabited

structure Run where
  order : Array Nat
  labels : Labels
  source : Source
  outcome : Outcome

namespace Run

def start (labels : Labels) (source : Source) : Run where
  order := Array.range labels.size
  labels
  source
  outcome := ⟨0, false, 0⟩

def step (g : SharingGraph) (run : Run) : Run :=
  let (order, source) :=
    if run.outcome.iterations = 0 then (run.order, run.source)
    else run.source.shuffle run.order
  let sweep := g.pass order.toList run.labels source
  { order
    labels := sweep.labels
    source := sweep.source
    outcome :=
      { iterations := run.outcome.iterations + 1
        converged := sweep.changes == 0
        firstChanges :=
          if run.outcome.iterations = 0 then sweep.changes else run.outcome.firstChanges } }

def upTo (g : SharingGraph) : Nat → Run → Run
  | 0, run => run
  | passes + 1, run => if run.outcome.converged then run else upTo g passes (run.step g)

end Run

structure RunStatistics where
  iterations : Nat
  converged : Bool
  modularity : Float

/-- The groups, the final labels in vertex order, and how the run went. -/
structure Clustering where
  groups : List Group
  nodes : List LabelNode
  outcome : Outcome
  statistics : Option RunStatistics

namespace Method

def default : Method := ⟨100, none, false⟩

def check (m : Method) : Except Fault Unit :=
  if m.cap = 0 then .error (.settings .noIterations) else .ok ()

/-- The source of a run: the stream of the seed, or the given one when there is no seed. -/
def source (m : Method) (unseeded : Source) : Source :=
  match m.seed with
  | none => unseeded
  | some seed => .ofSeed seed.toUInt64

def run (m : Method) (unseeded : Source) (g : SharingGraph) (labels : Labels) : Run :=
  (Run.start labels (m.source unseeded)).upTo g m.cap

def misplaced (g : SharingGraph) (nodes : List LabelNode) : Option (LabelNode × Nat) :=
  nodes.zipIdx.find? fun (node, position) => g.identity? position != some node.identity

/-- Nodes have to be the vertices in their order. -/
def checkNodes (g : SharingGraph) (nodes : List LabelNode) : Except Fault Unit :=
  if nodes.length ≠ g.vertexCount then
    .error (.argument (.nodeCount g.vertexCount nodes.length))
  else
    match misplaced g nodes with
    | none => .ok ()
    | some (node, position) => .error (.argument (.nodeOrder position node.identity))

def propagate (m : Method) (unseeded : Source) (g : SharingGraph) (nodes : List LabelNode) :
    Except Fault (Outcome × List LabelNode) := do
  checkNodes g nodes
  let run := m.run unseeded g (LabelNode.labels nodes)
  return (run.outcome, LabelNode.relabel nodes run.labels)

/-- Group the vertices of a graph, each of which starts under a label of its own. -/
def cluster (m : Method) (unseeded : Source) (g : SharingGraph) :
    Except Overflow Clustering := do
  let start := LabelNode.initial g
  let run := m.run unseeded g (LabelNode.labels start)
  let nodes := LabelNode.relabel start run.labels
  let groups := LabelNode.groups nodes
  if m.statistics then
    let modularity ← g.modularity groups
    let statistics := RunStatistics.mk run.outcome.iterations run.outcome.converged modularity
    return { groups, nodes, outcome := run.outcome, statistics := some statistics }
  else return { groups, nodes, outcome := run.outcome, statistics := none }

end Method

end Cohort
