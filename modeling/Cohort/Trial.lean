import Cohort.Agreement
import Cohort.Service
import Cohort.Workload

/-!
Trials: a workload is run through a service, and the groups found are held against the planted
ones.
-/

namespace Cohort

open Cohort.Random (Source)

/-- The groups found and the planted ones, their agreement, the modularity of the groups found,
and how many events and links there were. -/
structure Trial where
  groups : List Group
  planted : List Group
  jaccard : Float
  modularity : Float
  events : Nat
  links : Nat

namespace Trial

def recordAll (s : Service) (events : List Event) : Except Fault Service :=
  events.foldlM (fun s event => s.record event.identity event.objects) s

/-- What a workload leaves behind: the service that it ran through, the planted groups, the
events, and the graph of the use that they share. -/
structure Stage where
  service : Service
  planted : List Group
  events : List Event
  shared : SharingGraph

def stage (w : Workload) (settings : Settings) : Except Failure Stage := do
  let service ← Service.ofSettings settings false
  let planted ← w.plant.mapError .overflow
  let (events, _) ← (w.stream w.source).mapError .overflow
  let service ← (recordAll service events).mapError .refused
  let (shared, service) ← service.fold.mapError .overflow
  return { service, planted, events, shared }

def finish (stage : Stage) (unseeded : Source) : Except Failure Trial := do
  let (groups, _) ← (stage.service.cluster unseeded stage.shared).mapError .overflow
  let modularity ← (stage.shared.modularity groups).mapError .overflow
  return {
    groups
    planted := stage.planted
    jaccard := Cohort.jaccard groups stage.planted
    modularity
    events := stage.events.length
    links := stage.shared.edgeCount }

def run (w : Workload) (settings : Settings) (unseeded : Source) : Except Failure Trial := do
  let stage ← stage w settings
  finish stage unseeded

def passed (t : Trial) (threshold : Float) : Bool :=
  threshold ≤ t.jaccard

end Trial

end Cohort
