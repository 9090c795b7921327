import Cohort.Service
import Cohort.Proofs.SlidingWindow

/-! Runs of the service, and what it shows on the way. What can be asked about accesses and about
conflicts is gathered in a view of each. -/

namespace Cohort

open Cohort.Random (Source)

theorem Method.cluster_of_seed {m : Method} {unseeded unseeded' : Source}
    (h : m.seed.isSome ∨ unseeded = unseeded') (g : SharingGraph) :
    m.cluster unseeded g = m.cluster unseeded' g := by
  have hsource : m.source unseeded = m.source unseeded' := by
    obtain hseed | rfl := h
    · obtain ⟨seed, hseed⟩ := Option.isSome_iff_exists.mp hseed
      simp only [source, hseed]
    · rfl
  simp only [cluster, run, hsource]

namespace Service

inductive Step
  | record (name : Identity) (objects : List ObjectId)
  | conflict (node : NodeId) (object : ObjectId)
  | removeNode (node : NodeId)
  | fold
  | findGroups (unseeded : Source)
  | prune

namespace Step

def isPrune : Step → Bool
  | .prune => true
  | _ => false

def action : Step → Tracker.Action
  | .record name objects => .record name objects
  | .conflict node object => .conflict node object
  | .removeNode node => .removeNode node
  | .fold => .fold
  | .findGroups _ => .fold
  | .prune => .prune

end Step

/-- A step that fails leaves the service as it was; only groups that cannot be found leave behind
that the graph was folded. -/
def step (s : Service) : Step → Service
  | .record name objects =>
    match s.record name objects with
    | .ok s' => s'
    | .error _ => s
  | .conflict node object =>
    match s.recordConflict node object with
    | .ok s' => s'
    | .error _ => s
  | .removeNode node => s.removeNode node
  | .fold =>
    match s.fold with
    | .ok (_, s') => s'
    | .error _ => s
  | .findGroups unseeded =>
    match s.fold with
    | .ok (shared, folded) =>
      match folded.cluster unseeded shared with
      | .ok (_, s') => s'
      | .error _ => folded
    | .error _ => s
  | .prune => s.prune.2

def run (s : Service) (steps : List Step) : Service :=
  steps.foldl step s

def along {ω : Type} (told : Service → Step → Option ω) (s : Service) : List Step → List ω
  | [] => []
  | a :: rest => (told s a).toList ++ (s.step a).along told rest

theorem along_append {ω : Type} (told : Service → Step → Option ω) (s : Service)
    (steps rest : List Step) :
    s.along told (steps ++ rest) = s.along told steps ++ (s.run steps).along told rest := by
  induction steps generalizing s with
  | nil => rfl
  | cons a steps ih =>
    rw [List.cons_append, along, along, ih, List.append_assoc]
    rfl

section Tracker

theorem ofSettings_eq_ok {settings : Settings} {runtime : Bool} {s : Service}
    (h : ofSettings settings runtime = .ok s) :
    s.settings = settings ∧ Tracker.ofCount settings.periods = .ok s.tracker := by
  simp only [ofSettings, bind_eq_ok, pure, Except.pure, Except.ok.injEq] at h
  obtain ⟨_, -, tracker, htracker, _, -, rfl⟩ := h
  exact ⟨rfl, htracker⟩

theorem interval_pos_of_ofSettings {settings : Settings} {runtime : Bool} {s : Service}
    (h : ofSettings settings runtime = .ok s) : 0 < settings.interval.nanos := by
  simp only [ofSettings, bind_eq_ok] at h
  obtain ⟨_, hvalid, -⟩ := h
  cases hcheck : settings.validate with
  | error fault => simp [hcheck, Except.mapError] at hvalid
  | ok => exact (Settings.validate_eq_ok.mp hcheck).1

theorem tracker_complete (s : Service) (statistics : Option RunStatistics) :
    (s.complete statistics).tracker = s.tracker := by
  cases statistics <;> rfl

theorem settings_complete (s : Service) (statistics : Option RunStatistics) :
    (s.complete statistics).settings = s.settings := by
  cases statistics <;> rfl

theorem cluster_cases (s : Service) (unseeded : Source) (shared : SharingGraph) :
    (∃ cause, s.cluster unseeded shared = .error cause) ∨ ∃ groups s',
      s.cluster unseeded shared = .ok (groups, s') ∧ s'.tracker = s.tracker ∧
        s'.settings = s.settings := by
  unfold cluster
  cases s.settings.method.cluster unseeded shared with
  | error cause => exact .inl ⟨cause, rfl⟩
  | ok clustering =>
    exact .inr ⟨_, _, rfl, s.tracker_complete _, s.settings_complete _⟩

theorem fold_cases (s : Service) :
    (∃ cause, s.fold = .error cause ∧ s.tracker.act .fold = s.tracker) ∨ ∃ shared,
      s.fold = .ok (shared, { s with tracker := s.tracker.act .fold }) := by
  unfold fold Tracker.act
  cases h : s.tracker.fold with
  | error cause => exact .inl ⟨cause, rfl, rfl⟩
  | ok folded => exact .inr ⟨folded.1, rfl⟩

theorem step_cases (s : Service) (a : Step) :
    (s.step a).tracker = s.tracker.act a.action ∧ (s.step a).settings = s.settings := by
  cases a with
  | record name objects =>
    simp only [step, record, Step.action, Tracker.act]
    cases s.tracker.record name objects <;> exact ⟨rfl, rfl⟩
  | conflict node object =>
    simp only [step, recordConflict, Step.action, Tracker.act]
    cases s.tracker.recordConflict node object <;> exact ⟨rfl, rfl⟩
  | removeNode node => exact ⟨rfl, rfl⟩
  | fold =>
    rcases s.fold_cases with ⟨cause, heq, hact⟩ | ⟨shared, heq⟩
    · simp only [step, heq, Step.action, hact, and_self]
    · simp only [step, heq, Step.action, and_self]
  | findGroups unseeded =>
    rcases s.fold_cases with ⟨cause, heq, hact⟩ | ⟨shared, heq⟩
    · simp only [step, heq, Step.action, hact, and_self]
    · rcases Service.cluster_cases { s with tracker := s.tracker.act .fold } unseeded shared with
        ⟨cause, hcluster⟩ | ⟨groups, s', hcluster, htracker, hsettings⟩
      · simp only [step, heq, hcluster, Step.action, and_self]
      · simp only [step, heq, hcluster, Step.action]
        exact ⟨htracker, hsettings⟩
  | prune => exact ⟨rfl, rfl⟩

theorem tracker_run (s : Service) (steps : List Step) :
    (s.run steps).tracker = s.tracker.run (steps.map Step.action) := by
  induction steps generalizing s with
  | nil => rfl
  | cons a rest ih =>
    rw [List.map_cons]
    exact (ih (s.step a)).trans (by rw [(s.step_cases a).1]; rfl)

theorem settings_run (s : Service) (steps : List Step) :
    (s.run steps).settings = s.settings := by
  induction steps generalizing s with
  | nil => rfl
  | cons a rest ih => exact (ih (s.step a)).trans (s.step_cases a).2

end Tracker

structure AccessView where
  edgeWeight : Identity → ObjectId → Option Weight
  identityCount : Nat
  objectCount : Nat
  edgeCount : Nat
  objectUse : List (ObjectId × List (Identity × Weight))
  shared : Except Overflow SharingGraph
  groups : Except Overflow (List Group)

def accessView (unseeded : Source) (s : Service) : AccessView where
  edgeWeight := s.tracker.graph.edgeWeight
  identityCount := s.tracker.graph.identityCount
  objectCount := s.tracker.graph.objectCount
  edgeCount := s.tracker.graph.edgeCount
  objectUse := s.tracker.graph.objectUse
  shared := s.fold.map (·.1)
  groups := (s.findGroups unseeded).map (·.1)

structure ConflictView where
  count : NodeId → ObjectId → Nat
  summary : List (NodeId × List (ObjectId × Nat))
  containsNode : NodeId → Bool
  nodeCount : Nat
  downCount : Nat
  verdict : NodeId → ObjectId → Except Fault Bool

def conflictView (s : Service) : ConflictView where
  count := s.tracker.conflicts.count
  summary := s.tracker.conflicts.summary
  containsNode := s.tracker.conflicts.containsNode
  nodeCount := s.tracker.conflicts.nodeCount
  downCount := s.tracker.conflicts.downCount
  verdict node object := (s.tracker.recordConflict node object).map (·.1)

def accessReport? (s : Service) : Step → Option (Bool × Decayed)
  | .prune => some (s.prune.1.consumed, s.prune.1.edges)
  | _ => none

def conflictReport? (s : Service) : Step → Option (Bool × Nat)
  | .prune => some (s.prune.1.consumed, s.prune.1.conflicts)
  | _ => none

def verdict? (s : Service) : Step → Option (Except Fault Bool)
  | .conflict node object => some ((s.tracker.recordConflict node object).map (·.1))
  | _ => none

theorem fold_fst (s : Service) : s.fold.map (·.1) = s.tracker.graph.project := by
  unfold fold Tracker.fold
  cases s.tracker.graph.project <;> rfl

theorem findGroups_fst (s : Service) (unseeded : Source) : (s.findGroups unseeded).map (·.1) =
    s.tracker.graph.project.bind fun shared =>
      (s.settings.method.cluster unseeded shared).map (·.groups) := by
  unfold findGroups fold Tracker.fold
  cases s.tracker.graph.project with
  | error cause => rfl
  | ok shared =>
    simp only [cluster, bind, Except.bind, pure, Except.pure]
    cases s.settings.method.cluster unseeded shared <;> rfl

end Service

end Cohort
