import Cohort.Proofs.Views

/-! Everything that can be asked of a service, the queries and the pruner included. What is done
and answered apart from the pruner does not depend on the time, nor on whether a pruner is at
work. -/

namespace Cohort

open Cohort.Random (Source)

namespace Service

structure Sight where
  settings : Settings
  stats : Stats
  lastRun : Option RunStatistics
  handle? : Identity → Option Handle
  identityCount : Nat
  objectCount : Nat
  edgeCount : Nat
  objectUse : List (ObjectId × List (Identity × Weight))
  conflicts : List (NodeId × List (ObjectId × Nat))

def sight (s : Service) : Sight where
  settings := s.settings
  stats := s.stats
  lastRun := s.lastRun
  handle? := s.tracker.handle?
  identityCount := s.tracker.graph.identityCount
  objectCount := s.tracker.graph.objectCount
  edgeCount := s.tracker.graph.edgeCount
  objectUse := s.tracker.graph.objectUse
  conflicts := s.tracker.conflicts.summary

inductive Task
  | step (a : Step)
  | register (observer : Observer)
  | look

inductive Request
  | task (t : Task)
  | startPruner
  | sleep (time : Duration)
  | shutdown

inductive Answer
  | done
  | refused (fault : Fault)
  | failed (cause : Overflow)
  | shared (g : SharingGraph)
  | groups (groups : List Group)
  | report (report : PruneReport)
  | registered (accepted : Bool)
  | sight (sight : Sight)

def Request.isPrune : Request → Bool
  | .task (.step a) => a.isPrune
  | _ => false

def perform (s : Service) : Task → Service
  | .step a => s.step a
  | .register observer => (s.register observer).2
  | .look => s

def answer (s : Service) : Task → Answer
  | .step (.record name objects) =>
    match s.record name objects with
    | .ok _ => .done
    | .error fault => .refused fault
  | .step (.conflict node object) =>
    match s.recordConflict node object with
    | .ok _ => .done
    | .error fault => .refused fault
  | .step (.removeNode _) => .done
  | .step .fold =>
    match s.fold with
    | .ok (shared, _) => .shared shared
    | .error cause => .failed cause
  | .step (.findGroups unseeded) =>
    match s.findGroups unseeded with
    | .ok (groups, _) => .groups groups
    | .error cause => .failed cause
  | .step .prune => .report s.prune.1
  | .register observer => .registered (s.register observer).1
  | .look => .sight s.sight

def serve (s : Service) : Request → Service
  | .task t => s.perform t
  | .startPruner =>
    match s.startPruner with
    | .ok s' => s'
    | .error _ => s
  | .sleep time => s.sleep time
  | .shutdown => s.shutdown

def serveAll (s : Service) (requests : List Request) : Service :=
  requests.foldl serve s

def answer? (s : Service) : Request → Option Answer
  | .task t => some (s.answer t)
  | _ => none

structure Clock where
  runtime : Bool
  now : Nat
  pruner : Option Pruner

def clock (s : Service) : Clock :=
  ⟨s.runtime, s.now, s.pruner⟩

def withClock (s : Service) (c : Clock) : Service :=
  { s with runtime := c.runtime, now := c.now, pruner := c.pruner }

@[simp] theorem withClock_clock (s : Service) : s.withClock s.clock = s :=
  rfl

@[simp] theorem clock_withClock (s : Service) (c : Clock) : (s.withClock c).clock = c :=
  rfl

theorem clock_of_ofSettings {s : Service} {settings : Settings} {runtime : Bool}
    (h : ofSettings settings runtime = .ok s) : s.clock = ⟨runtime, 0, none⟩ := by
  simp only [ofSettings, bind_eq_ok, pure, Except.pure, Except.ok.injEq] at h
  obtain ⟨_, -, tracker, -, _, -, rfl⟩ := h
  rfl

theorem complete_withClock (s : Service) (c : Clock) (statistics : Option RunStatistics) :
    (s.withClock c).complete statistics = (s.complete statistics).withClock c := by
  cases statistics <;> rfl

theorem record_withClock (s : Service) (c : Clock) (name : Identity) (objects : List ObjectId) :
    (s.withClock c).record name objects = (s.record name objects).map (·.withClock c) := by
  simp only [record, withClock]
  cases s.tracker.record name objects <;> rfl

theorem recordConflict_withClock (s : Service) (c : Clock) (node : NodeId) (object : ObjectId) :
    (s.withClock c).recordConflict node object =
      (s.recordConflict node object).map (·.withClock c) := by
  simp only [recordConflict, withClock]
  cases s.tracker.recordConflict node object <;> rfl

theorem fold_withClock (s : Service) (c : Clock) :
    (s.withClock c).fold = s.fold.map fun (shared, s') => (shared, s'.withClock c) := by
  simp only [fold, withClock]
  cases s.tracker.fold <;> rfl

theorem cluster_withClock (s : Service) (c : Clock) (unseeded : Source) (shared : SharingGraph) :
    (s.withClock c).cluster unseeded shared =
      (s.cluster unseeded shared).map fun (groups, s') => (groups, s'.withClock c) := by
  unfold cluster
  change (s.settings.method.cluster unseeded shared >>= _) = _
  cases s.settings.method.cluster unseeded shared with
  | error cause => rfl
  | ok clustering =>
    simp only [bind, Except.bind, pure, Except.pure, Except.map, complete_withClock]

theorem findGroups_withClock (s : Service) (c : Clock) (unseeded : Source) :
    (s.withClock c).findGroups unseeded =
      (s.findGroups unseeded).map fun (groups, s') => (groups, s'.withClock c) := by
  simp only [findGroups, fold_withClock]
  cases s.fold with
  | error cause => rfl
  | ok folded => exact folded.2.cluster_withClock c unseeded folded.1

theorem step_withClock (s : Service) (c : Clock) (a : Step) :
    (s.withClock c).step a = (s.step a).withClock c := by
  cases a with
  | record name objects =>
    simp only [step, record_withClock]
    cases s.record name objects <;> rfl
  | conflict node object =>
    simp only [step, recordConflict_withClock]
    cases s.recordConflict node object <;> rfl
  | removeNode node => rfl
  | fold =>
    simp only [step, fold_withClock]
    cases s.fold <;> rfl
  | findGroups unseeded =>
    simp only [step, fold_withClock]
    cases s.fold with
    | error cause => rfl
    | ok folded =>
      simp only [Except.map, cluster_withClock]
      cases folded.2.cluster unseeded folded.1 <;> rfl
  | prune => rfl

theorem register_withClock (s : Service) (c : Clock) (observer : Observer) :
    (s.withClock c).register observer =
      ((s.register observer).1, (s.register observer).2.withClock c) := by
  unfold register
  split <;> rfl

theorem perform_withClock (s : Service) (c : Clock) (t : Task) :
    (s.withClock c).perform t = (s.perform t).withClock c := by
  cases t with
  | step a => exact s.step_withClock c a
  | register observer => exact congrArg Prod.snd (s.register_withClock c observer)
  | look => rfl

theorem clock_perform (s : Service) (t : Task) : (s.perform t).clock = s.clock := by
  calc (s.perform t).clock
      = ((s.perform t).withClock s.clock).clock := by rw [← perform_withClock, withClock_clock]
    _ = s.clock := clock_withClock ..

theorem answer_withClock (s : Service) (c : Clock) (t : Task) :
    (s.withClock c).answer t = s.answer t := by
  cases t with
  | step a =>
    cases a with
    | record name objects =>
      simp only [answer, record_withClock]
      cases s.record name objects <;> rfl
    | conflict node object =>
      simp only [answer, recordConflict_withClock]
      cases s.recordConflict node object <;> rfl
    | removeNode node => rfl
    | fold =>
      simp only [answer, fold_withClock]
      cases s.fold <;> rfl
    | findGroups unseeded =>
      simp only [answer, findGroups_withClock]
      cases s.findGroups unseeded <;> rfl
    | prune => rfl
  | register observer =>
    have hregister := s.register_withClock c observer
    exact congrArg (fun registered => Answer.registered registered.1) hregister
  | look => rfl

theorem register_cases (s : Service) (observer : Observer) :
    (s.register observer).2.tracker = s.tracker ∧
      (s.register observer).2.settings = s.settings := by
  unfold register
  split <;> exact ⟨rfl, rfl⟩

theorem settings_perform (s : Service) (t : Task) : (s.perform t).settings = s.settings := by
  cases t with
  | step a => exact (s.step_cases a).2
  | register observer => exact (s.register_cases observer).2
  | look => rfl

end Service

end Cohort
