import Cohort.Pruner
import Cohort.Settings

/-!
The whole service: live state under checked settings, groups on request, observers of the runs,
and a pruner that follows the clock.
-/

namespace Cohort

open Cohort.Random (Source)

structure Stats where
  counters : Counters
  periods : Nat
  interval : Duration
  deriving DecidableEq, Repr

/-- Observers of counters and runs: one writes log lines, the others are told by name, and may
refuse to be attached. -/
inductive Observer where
  | logging
  | named (name : String) (refusal : Option Fault)
  deriving DecidableEq, Repr

inductive Notice where
  | attached (name : String) (stats : Stats)
  | ran (name : String) (statistics : RunStatistics)

/-- A tracker under settings, with its observers and what they were told, the statistics of the
last run, and the clock in nanoseconds with the pruner that follows it. -/
structure Service where
  settings : Settings
  tracker : Tracker
  lastRun : Option RunStatistics
  observers : List Observer
  notices : List Notice
  runtime : Bool
  now : Nat
  pruner : Option Pruner

namespace Observer

def onAttach (stats : Stats) : Observer → List Notice
  | logging => []
  | named name _ => [.attached name stats]

def onRun (statistics : RunStatistics) : Observer → List Notice
  | logging => []
  | named name _ => [.ran name statistics]

def accepts : Observer → Bool
  | logging => true
  | named _ refusal => refusal.isNone

end Observer

namespace Service

def ofSettings (settings : Settings) (runtime : Bool) : Except Failure Service := do
  settings.validate.mapError .refused
  let tracker ← Tracker.ofCount settings.periods
  settings.method.check.mapError .refused
  return { settings, tracker, lastRun := none, observers := [], notices := [], runtime,
           now := 0, pruner := none }

def stats (s : Service) : Stats :=
  ⟨s.tracker.counters, s.settings.periods, s.settings.interval⟩

def record (s : Service) (name : Identity) (objects : List ObjectId) :
    Except Fault Service := do
  let tracker ← s.tracker.record name objects
  return { s with tracker }

/-- Count a conflict. Reports on nodes that are down are accepted and have no effect. -/
def recordConflict (s : Service) (node : NodeId) (object : ObjectId) :
    Except Fault Service := do
  let (_, tracker) ← s.tracker.recordConflict node object
  return { s with tracker }

def removeNode (s : Service) (node : NodeId) : Service :=
  { s with tracker := s.tracker.removeNode node }

def prune (s : Service) : PruneReport × Service :=
  let (report, tracker) := s.tracker.prune
  (report, { s with tracker })

def fold (s : Service) : Except Overflow (SharingGraph × Service) := do
  let (shared, tracker) ← s.tracker.fold
  return (shared, { s with tracker })

/-- Keep the statistics of a run, and tell the observers in the order of registration. -/
def complete (s : Service) : Option RunStatistics → Service
  | none => s
  | some statistics =>
    { s with
      lastRun := some statistics
      notices := s.notices ++ s.observers.flatMap (·.onRun statistics) }

def cluster (s : Service) (unseeded : Source) (shared : SharingGraph) :
    Except Overflow (List Group × Service) := do
  let clustering ← s.settings.method.cluster unseeded shared
  return (clustering.groups, s.complete clustering.statistics)

def findGroups (s : Service) (unseeded : Source) :
    Except Overflow (List Group × Service) := do
  let (shared, s) ← s.fold
  s.cluster unseeded shared

def register (s : Service) (observer : Observer) : Bool × Service :=
  let s := { s with notices := s.notices ++ observer.onAttach s.stats }
  if observer.accepts then (true, { s with observers := s.observers ++ [observer] })
  else (false, s)

/-- Whether there is a pruner that has not given up. -/
def isPruning (s : Service) : Bool :=
  s.pruner.any (·.isRunning s.now)

def startPruner (s : Service) : Except Fault Service :=
  if s.isPruning then .ok s
  else do
    let pruner ← Pruner.start s.runtime s.settings.interval s.now
    return { s with pruner := some pruner }

def sleep (s : Service) (time : Duration) : Service :=
  let now := s.now + time.wait
  match s.pruner with
  | none => { s with now }
  | some pruner =>
    let (pruner, tracker) := pruner.catchUp now s.tracker
    { s with now, tracker, pruner := some pruner }

def shutdown (s : Service) : Service :=
  { s with pruner := none }

end Service

end Cohort
