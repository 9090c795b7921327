import Cohort.Proofs.Reports
import Cohort.Proofs.Views

/-! Accesses and conflicts share the periods of one window and are pruned together, and still
neither leaves a trace in the other. Each has a half of the service to itself: what is done to the
other half does not change it, and what is done to itself is decided by it. -/

namespace Cohort

open Cohort.Random (Source)

namespace Window

variable {w w' : Window}

theorem tallies_recordEdges_congr (h : w.tallies = w'.tallies) (keys : List Key) :
    (w.recordEdges keys).tallies = (w'.recordEdges keys).tallies := by
  rw [tallies_eq, tallies_eq] at h
  obtain ⟨hopened, hclosed⟩ := List.cons.inj h
  rw [tallies_recordEdges, tallies_recordEdges, Period.edges_addEdges, Period.edges_addEdges,
    hopened, hclosed]

theorem reports_recordConflict_congr (h : w.reports = w'.reports) (node : NodeId)
    (object : ObjectId) :
    (w.recordConflict node object).reports = (w'.recordConflict node object).reports := by
  rw [reports_eq, reports_eq] at h
  obtain ⟨hopened, hclosed⟩ := List.cons.inj h
  rw [reports_recordConflict, reports_recordConflict, hopened, hclosed]

end Window

namespace Tracker

def accessHalf (t : Tracker) : AccessGraph × Nat × List (Tally Key) :=
  (t.graph, t.window.count, t.window.tallies)

def conflictHalf (t : Tracker) : Conflicts × Nat × List (Tally (NodeId × ObjectId)) :=
  (t.conflicts, t.window.count, t.window.reports)

variable {t t' : Tracker}

theorem accessHalf_record (h : t.accessHalf = t'.accessHalf) (name : Identity)
    (objects : List ObjectId) :
    (t.act (.record name objects)).accessHalf = (t'.act (.record name objects)).accessHalf := by
  rw [act_record, act_record]
  split
  next =>
    simp only [accessHalf, Prod.mk.injEq] at h
    obtain ⟨hgraph, hcount, htallies⟩ := h
    simp only [accessHalf, recorded, hgraph, Window.count_recordEdges, hcount,
      Window.tallies_recordEdges_congr htallies]
  next => exact h

theorem prune_consumed (t : Tracker) : t.prune.1.consumed = t.window.rotate.1.isSome := by
  cases h : t.window.rotate.1 with
  | none => rw [prune_of_none h, Option.isSome_none]
  | some period => rw [prune_of_some h, Option.isSome_some]

theorem prune_edges (t : Tracker) : (t.prune.1.edges, t.prune.2.graph) =
    (t.window.rotate.1.map (·.edges)).elim (.zero, t.graph) (t.graph.expire ·.entries) := by
  cases h : t.window.rotate.1 with
  | none => rw [prune_of_none h, Option.map_none, Option.elim_none]
  | some period => rw [prune_of_some h, Option.map_some, Option.elim_some]

theorem prune_conflicts (t : Tracker) : (t.prune.1.conflicts, t.prune.2.conflicts) =
    (t.window.rotate.1.map (·.conflicts)).elim (0, t.conflicts) (t.conflicts.expire ·.entries) := by
  cases h : t.window.rotate.1 with
  | none => rw [prune_of_none h, Option.map_none, Option.elim_none]
  | some period => rw [prune_of_some h, Option.map_some, Option.elim_some]

theorem accessHalf_prune (h : t.accessHalf = t'.accessHalf) :
    t.prune.2.accessHalf = t'.prune.2.accessHalf ∧
      t.prune.1.consumed = t'.prune.1.consumed ∧ t.prune.1.edges = t'.prune.1.edges := by
  simp only [accessHalf, Prod.mk.injEq] at h
  obtain ⟨hgraph, hcount, htallies⟩ := h
  obtain ⟨hexpired, hlatest⟩ := Window.rotate_congr (·.edges) hcount htallies
  have hedges := t.prune_edges
  rw [hexpired, hgraph, ← t'.prune_edges, Prod.mk.injEq] at hedges
  have hconsumed := congrArg Option.isSome hexpired
  rw [Option.isSome_map, Option.isSome_map, ← prune_consumed, ← prune_consumed] at hconsumed
  refine ⟨?_, hconsumed, hedges.1⟩
  simp only [accessHalf, hedges.2, window_prune, Window.count_rotate, hcount]
  exact congrArg (_, t'.window.count, ·) hlatest

theorem accessHalf_other (t : Tracker) {action : Action}
    (h : (∃ node object, action = .conflict node object) ∨
      (∃ node, action = .removeNode node) ∨ action = .fold) :
    (t.act action).accessHalf = t.accessHalf := by
  obtain ⟨node, object, rfl⟩ | ⟨node, rfl⟩ | rfl := h
  · rw [act_conflict]
    split
    next => rfl
    next =>
      simp only [accessHalf, reported, Window.count_recordConflict, Window.tallies_recordConflict]
  · rfl
  · obtain ⟨places, counters, heq⟩ := t.act_fold
    rw [heq]
    rfl

theorem recordConflict_eq (t : Tracker) (node : NodeId) (object : ObjectId) :
    t.recordConflict node object =
      if object = 0 then .error (.argument .absentConflict)
      else if t.conflicts.isDown node then .ok (false, t)
      else .ok (true, t.reported node object) := by
  rcases t.recordConflict_cases node object with ⟨habsent, heq⟩ | ⟨habsent, hdown, heq⟩ |
    ⟨habsent, hdown, heq⟩
  · rw [heq, if_pos habsent]
  · rw [heq, if_neg habsent, if_pos hdown]
  · rw [heq, if_neg habsent, if_neg hdown]

theorem conflictHalf_report (h : t.conflictHalf = t'.conflictHalf) (node : NodeId)
    (object : ObjectId) :
    (t.act (.conflict node object)).conflictHalf = (t'.act (.conflict node object)).conflictHalf ∧
      (t.recordConflict node object).map (·.1) = (t'.recordConflict node object).map (·.1) := by
  have hparts := h
  simp only [conflictHalf, Prod.mk.injEq] at hparts
  obtain ⟨hconflicts, hcount, hreports⟩ := hparts
  simp only [act, recordConflict_eq, hconflicts]
  by_cases habsent : object = 0
  · simp only [habsent, if_true, h, and_self]
  · by_cases hdown : t'.conflicts.isDown node
    · simp only [habsent, hdown, if_false, if_true, h]
      exact ⟨trivial, rfl⟩
    · simp only [habsent, hdown, if_false, Bool.false_eq_true, conflictHalf, reported, hconflicts,
        Window.count_recordConflict, hcount, Window.reports_recordConflict_congr hreports]
      exact ⟨trivial, rfl⟩

theorem conflictHalf_removeNode (h : t.conflictHalf = t'.conflictHalf) (node : NodeId) :
    (t.removeNode node).conflictHalf = (t'.removeNode node).conflictHalf := by
  simp only [conflictHalf, Prod.mk.injEq] at h
  obtain ⟨hconflicts, hwindow⟩ := h
  simp only [conflictHalf, removeNode, hconflicts, hwindow]

theorem conflictHalf_prune (h : t.conflictHalf = t'.conflictHalf) :
    t.prune.2.conflictHalf = t'.prune.2.conflictHalf ∧
      t.prune.1.consumed = t'.prune.1.consumed ∧ t.prune.1.conflicts = t'.prune.1.conflicts := by
  simp only [conflictHalf, Prod.mk.injEq] at h
  obtain ⟨hconflicts, hcount, hreports⟩ := h
  obtain ⟨hexpired, hlatest⟩ := Window.rotate_congr (·.conflicts) hcount hreports
  have hcleared := t.prune_conflicts
  rw [hexpired, hconflicts, ← t'.prune_conflicts, Prod.mk.injEq] at hcleared
  have hconsumed := congrArg Option.isSome hexpired
  rw [Option.isSome_map, Option.isSome_map, ← prune_consumed, ← prune_consumed] at hconsumed
  refine ⟨?_, hconsumed, hcleared.1⟩
  simp only [conflictHalf, hcleared.2, window_prune, Window.count_rotate, hcount]
  exact congrArg (_, t'.window.count, ·) hlatest

theorem conflictHalf_other (t : Tracker) {action : Action}
    (h : (∃ name objects, action = .record name objects) ∨ action = .fold) :
    (t.act action).conflictHalf = t.conflictHalf := by
  obtain ⟨name, objects, rfl⟩ | rfl := h
  · rw [act_record]
    split
    next =>
      simp only [conflictHalf, recorded, Window.count_recordEdges, Window.reports_recordEdges]
    next => rfl
  · obtain ⟨places, counters, heq⟩ := t.act_fold
    rw [heq]
    rfl

end Tracker

namespace Service

variable {σ ω : Type} {half : Service → σ} {keep : Step → Bool} {told : Service → Step → Option ω}

/-- A part of the service that only some steps change, and these as the part itself decides. -/
structure Apart (half : Service → σ) (keep : Step → Bool) : Prop where
  kept : ∀ {s s'} a, keep a → half s = half s' → half (s.step a) = half (s'.step a)
  skipped : ∀ s a, keep a = false → half (s.step a) = half s

/-- What a part tells at the steps that change it, and at no others. -/
structure Tells (half : Service → σ) (keep : Step → Bool) (told : Service → Step → Option ω) :
    Prop where
  kept : ∀ {s s'} a, half s = half s' → told s a = told s' a
  skipped : ∀ s a, keep a = false → told s a = none

/-- The other steps can be left out. -/
theorem Apart.run_filter (apart : Apart half keep) {s s' : Service} (h : half s = half s')
    (steps : List Step) : half (s.run steps) = half (s'.run (steps.filter keep)) := by
  induction steps generalizing s s' with
  | nil => exact h
  | cons a rest ih =>
    cases hkeep : keep a with
    | true =>
      rw [List.filter_cons_of_pos hkeep]
      exact ih (apart.kept a hkeep h)
    | false =>
      rw [List.filter_cons_of_neg (by simp [hkeep])]
      exact ih ((apart.skipped s a hkeep).trans h)

theorem Apart.along_filter (apart : Apart half keep) (tells : Tells half keep told)
    {s s' : Service} (h : half s = half s') (steps : List Step) :
    s.along told steps = s'.along told (steps.filter keep) := by
  induction steps generalizing s s' with
  | nil => rfl
  | cons a rest ih =>
    cases hkeep : keep a with
    | true =>
      rw [List.filter_cons_of_pos hkeep, along, along, tells.kept a h,
        ih (apart.kept a hkeep h)]
    | false =>
      rw [List.filter_cons_of_neg (by simp [hkeep]), along, tells.skipped s a hkeep]
      exact ih ((apart.skipped s a hkeep).trans h)

section Congr

variable (apart : Apart half keep) {steps others : List Step}
  (h : steps.filter keep = others.filter keep) (s : Service)

include apart h

theorem Apart.run_congr : half (s.run steps) = half (s.run others) := by
  rw [apart.run_filter rfl steps, h, ← apart.run_filter rfl others]

theorem Apart.along_congr (tells : Tells half keep told) :
    s.along told steps = s.along told others := by
  rw [apart.along_filter tells rfl steps, h, ← apart.along_filter tells rfl others]

end Congr

namespace Step

def onAccesses : Step → Bool
  | .record .. => true
  | .prune => true
  | _ => false

def onConflicts : Step → Bool
  | .conflict .. => true
  | .removeNode _ => true
  | .prune => true
  | _ => false

end Step

theorem apart_accesses : Apart (·.tracker.accessHalf) Step.onAccesses where
  kept {s s'} a hkeep h := by
    rw [(s.step_cases a).1, (s'.step_cases a).1]
    cases a with
    | record name objects => exact Tracker.accessHalf_record h name objects
    | prune => exact (Tracker.accessHalf_prune h).1
    | _ => cases hkeep
  skipped s a hkeep := by
    rw [(s.step_cases a).1]
    cases a with
    | conflict node object => exact s.tracker.accessHalf_other (.inl ⟨node, object, rfl⟩)
    | removeNode node => exact s.tracker.accessHalf_other (.inr (.inl ⟨node, rfl⟩))
    | fold => exact s.tracker.accessHalf_other (.inr (.inr rfl))
    | findGroups unseeded => exact s.tracker.accessHalf_other (.inr (.inr rfl))
    | _ => cases hkeep

theorem apart_conflicts : Apart (·.tracker.conflictHalf) Step.onConflicts where
  kept {s s'} a hkeep h := by
    rw [(s.step_cases a).1, (s'.step_cases a).1]
    cases a with
    | conflict node object => exact (Tracker.conflictHalf_report h node object).1
    | removeNode node => exact Tracker.conflictHalf_removeNode h node
    | prune => exact (Tracker.conflictHalf_prune h).1
    | _ => cases hkeep
  skipped s a hkeep := by
    rw [(s.step_cases a).1]
    cases a with
    | record name objects => exact s.tracker.conflictHalf_other (.inl ⟨name, objects, rfl⟩)
    | fold => exact s.tracker.conflictHalf_other (.inr rfl)
    | findGroups unseeded => exact s.tracker.conflictHalf_other (.inr rfl)
    | _ => cases hkeep

theorem tells_accessReport : Tells (·.tracker.accessHalf) Step.onAccesses accessReport? where
  kept {s s'} a h := by
    cases a with
    | prune =>
      obtain ⟨-, hconsumed, hedges⟩ := Tracker.accessHalf_prune h
      exact congrArg some (Prod.ext hconsumed hedges)
    | _ => rfl
  skipped s a hkeep := by
    cases a with
    | prune => cases hkeep
    | _ => rfl

theorem tells_conflictReport :
    Tells (·.tracker.conflictHalf) Step.onConflicts conflictReport? where
  kept {s s'} a h := by
    cases a with
    | prune =>
      obtain ⟨-, hconsumed, hcleared⟩ := Tracker.conflictHalf_prune h
      exact congrArg some (Prod.ext hconsumed hcleared)
    | _ => rfl
  skipped s a hkeep := by
    cases a with
    | prune => cases hkeep
    | _ => rfl

theorem tells_verdict : Tells (·.tracker.conflictHalf) Step.onConflicts verdict? where
  kept {s s'} a h := by
    cases a with
    | conflict node object => exact congrArg some (Tracker.conflictHalf_report h node object).2
    | _ => rfl
  skipped s a hkeep := by
    cases a with
    | conflict node object => cases hkeep
    | _ => rfl

section Views

variable {s s' : Service}

theorem accessView_congr (hgraph : s.tracker.graph = s'.tracker.graph)
    (hsettings : s.settings = s'.settings) {unseeded unseeded' : Source}
    (hseed : s.settings.seed.isSome ∨ unseeded = unseeded') :
    s.accessView unseeded = s'.accessView unseeded' := by
  simp only [accessView, fold_fst, findGroups_fst, ← hgraph, ← hsettings,
    Method.cluster_of_seed (m := s.settings.method) hseed]

theorem conflictView_congr (h : s.tracker.conflictHalf = s'.tracker.conflictHalf) :
    s.conflictView = s'.conflictView := by
  have hverdict := fun node object => (Tracker.conflictHalf_report h node object).2
  simp only [Tracker.conflictHalf, Prod.mk.injEq] at h
  simp only [conflictView, h.1, hverdict]

end Views

/-- Runs with the same accesses and prunes show the same of the accesses, and runs with the same
reports, removed nodes and prunes show the same of the conflicts. -/
theorem separation (s : Service) (steps others : List Step) :
    (steps.filter Step.onAccesses = others.filter Step.onAccesses →
      s.along accessReport? steps = s.along accessReport? others ∧
      ∀ unseeded unseeded', s.settings.seed.isSome ∨ unseeded = unseeded' →
        (s.run steps).accessView unseeded = (s.run others).accessView unseeded') ∧
    (steps.filter Step.onConflicts = others.filter Step.onConflicts →
      s.along conflictReport? steps = s.along conflictReport? others ∧
      s.along verdict? steps = s.along verdict? others ∧
      (s.run steps).conflictView = (s.run others).conflictView) := by
  refine ⟨fun h => ⟨apart_accesses.along_congr h s tells_accessReport, ?_⟩, fun h =>
    ⟨apart_conflicts.along_congr h s tells_conflictReport,
      apart_conflicts.along_congr h s tells_verdict, ?_⟩⟩
  · intro unseeded unseeded' hseed
    have hhalf := apart_accesses.run_congr h s
    simp only [Tracker.accessHalf, Prod.mk.injEq] at hhalf
    apply accessView_congr hhalf.1
    · rw [settings_run, settings_run]
    · rwa [settings_run]
  · exact conflictView_congr (apart_conflicts.run_congr h s)

theorem separation_interleaved : ∃ s, ofSettings Settings.testing true = .ok s ∧
    (∀ unseeded unseeded',
      (s.run [.record "a" [7], .conflict 1 7, .prune, .removeNode 1]).accessView unseeded =
        (s.run [.record "a" [7], .prune, .conflict 2 9]).accessView unseeded') ∧
    (s.run [.record "a" [7], .conflict 1 7, .prune, .removeNode 1]).conflictView =
      (s.run [.conflict 1 7, .fold, .prune, .record "b" [9], .removeNode 1]).conflictView := by
  refine ⟨_, rfl, fun unseeded unseeded' => ?_, ?_⟩
  · refine ((separation _ _ _).1 ?_).2 unseeded unseeded' (.inl rfl)
    rfl
  · refine ((separation _ _ _).2 ?_).2.2
    rfl

end Service

end Cohort
