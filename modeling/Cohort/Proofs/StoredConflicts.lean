import Cohort.Proofs.Conflicts.ByNode
import Cohort.Proofs.Reports

/-! What a tracker that stores its conflicts by node tells of the past. Its counts are the reports
that are not older than the window, it holds no node without counts, and it answers every question
like a tracker with plain counts. -/

namespace Cohort.Tracker

open Conflicts

structure Stored where
  graph : AccessGraph
  window : Window
  conflicts : ByNode

namespace Stored

def ofCount (count : Nat) : Except Failure Stored := do
  let window ← Window.ofCount count
  return { graph := ∅, window, conflicts := ∅ }

/-- What an action makes of the stored state. The nodes of an expired period, and the objects of
each node, come in any order. -/
inductive Step (s : Stored) : Action → Stored → Prop
  | record {name objects} (h : Action.accepted name objects) :
      s.Step (.record name objects)
        { s with
          graph := (s.graph.touch name (accessSet objects)).2
          window := s.window.recordEdges (s.graph.touch name (accessSet objects)).1 }
  | refused {name objects} (h : ¬ Action.accepted name objects) : s.Step (.record name objects) s
  | conflict {node object accepted conflicts window}
      (h : s.conflicts.record s.window node object = .ok (accepted, conflicts, window)) :
      s.Step (.conflict node object) { s with conflicts, window }
  | absent {node object fault} (h : s.conflicts.record s.window node object = .error fault) :
      s.Step (.conflict node object) s
  | removeNode {node} :
      s.Step (.removeNode node) { s with conflicts := s.conflicts.removeNode node }
  | fold : s.Step .fold s
  | objectUse : s.Step .objectUse s
  | fill (h : s.window.rotate.1 = none) : s.Step .prune { s with window := s.window.rotate.2 }
  | prune {period} {walk : NodeWalk} (h : s.window.rotate.1 = some period)
      (hwalk : walk.entries.Perm period.conflicts.entries) :
      s.Step .prune
        { graph := (s.graph.expire period.edges.entries).2
          window := s.window.rotate.2
          conflicts := (s.conflicts.expire walk).2 }

inductive Run (s₀ : Stored) : List Action → Stored → Prop
  | start : s₀.Run [] s₀
  | step {actions action s s'} (run : s₀.Run actions s) (h : s.Step action s') :
      s₀.Run (actions ++ [action]) s'

theorem exists_walk (counts : Tally (NodeId × ObjectId)) :
    ∃ walk : NodeWalk, walk.entries.Perm counts.entries := by
  refine ⟨counts.entries.map fun entry => (entry.1.1, [(entry.1.2, entry.2)]), ?_⟩
  simp [NodeWalk.entries, countsAt, List.flatMap_map]

theorem exists_step (s : Stored) (action : Action) : ∃ s', s.Step action s' := by
  cases action with
  | record name objects =>
    by_cases haccepted : Action.accepted name objects
    · exact ⟨_, .record haccepted⟩
    · exact ⟨_, .refused haccepted⟩
  | conflict node object =>
    cases hanswer : s.conflicts.record s.window node object with
    | error fault => exact ⟨_, .absent hanswer⟩
    | ok answer => exact ⟨_, .conflict hanswer⟩
  | removeNode node => exact ⟨_, .removeNode⟩
  | fold => exact ⟨_, .fold⟩
  | objectUse => exact ⟨_, .objectUse⟩
  | prune =>
    cases hexpired : s.window.rotate.1 with
    | none => exact ⟨_, .fill hexpired⟩
    | some period =>
      obtain ⟨walk, hwalk⟩ := exists_walk period.conflicts
      exact ⟨_, .prune hexpired hwalk⟩

theorem exists_run (s₀ : Stored) (actions : List Action) : ∃ s, s₀.Run actions s := by
  induction actions using List.reverseRecOn with
  | nil => exact ⟨_, .start⟩
  | append_singleton actions action ih =>
    obtain ⟨s, run⟩ := ih
    obtain ⟨s', hstep⟩ := s.exists_step action
    exact ⟨s', run.step hstep⟩

structure Mirrors (s : Stored) (t : Tracker) : Prop where
  graph : s.graph = t.graph
  window : s.window = t.window
  conflicts : s.conflicts.Matches t.conflicts

section Steps

variable {s s' : Stored} {t : Tracker}

theorem Mirrors.conflict (mirrors : s.Mirrors t) {node : NodeId} {object : ObjectId}
    {accepted : Bool} {conflicts : ByNode} {window : Window}
    (h : s.conflicts.record s.window node object = .ok (accepted, conflicts, window)) :
    Mirrors { s with conflicts, window } (t.act (.conflict node object)) := by
  have hdowns : s.conflicts.downs.contains node = t.conflicts.isDown node :=
    congrArg (·.contains node) mirrors.conflicts.downs
  rw [ByNode.record_eq, hdowns] at h
  rw [act_conflict]
  split at h
  next => cases h
  next hobject =>
    split at h
    next hdown =>
      cases h
      rw [if_pos (.inr hdown)]
      exact mirrors
    next hup =>
      cases h
      rw [if_neg (not_or.mpr ⟨hobject, hup⟩)]
      exact ⟨mirrors.graph, congrArg (·.recordConflict node object) mirrors.window,
        mirrors.conflicts.counted node object⟩

theorem Mirrors.step (mirrors : s.Mirrors t) {action : Action} (h : s.Step action s') :
    s'.Mirrors (t.act action) := by
  obtain ⟨hgraph, hwindow, hconflicts⟩ := mirrors
  cases h with
  | record haccepted =>
    rw [act_record, if_pos haccepted]
    refine ⟨?_, ?_, hconflicts⟩
    · rw [hgraph]
      rfl
    · rw [hgraph, hwindow]
      rfl
  | refused hrefused =>
    rw [act_record, if_neg hrefused]
    exact ⟨hgraph, hwindow, hconflicts⟩
  | conflict hanswer => exact Mirrors.conflict ⟨hgraph, hwindow, hconflicts⟩ hanswer
  | absent hanswer =>
    rw [act_conflict, if_pos (.inl (ByNode.eq_zero_of_record_eq_error hanswer))]
    exact ⟨hgraph, hwindow, hconflicts⟩
  | removeNode => exact ⟨hgraph, hwindow, hconflicts.removeNode _⟩
  | fold =>
    obtain ⟨places, counters, heq⟩ := t.act_fold
    rw [heq]
    exact ⟨hgraph, hwindow, hconflicts⟩
  | objectUse => exact ⟨hgraph, hwindow, hconflicts⟩
  | fill hexpired =>
    rw [hwindow] at hexpired
    change Mirrors _ t.prune.2
    rw [prune_of_none hexpired, hwindow]
    exact ⟨hgraph, rfl, hconflicts⟩
  | @prune period walk hexpired hwalk =>
    rw [hwindow] at hexpired
    change Mirrors _ t.prune.2
    rw [prune_of_some hexpired, hwindow, hgraph]
    exact ⟨rfl, rfl, (hconflicts.expire hwalk).2⟩

end Steps

theorem Mirrors.run {s₀ s : Stored} {t₀ : Tracker} (mirrors : s₀.Mirrors t₀) {actions : List Action}
    (run : s₀.Run actions s) : s.Mirrors (t₀.run actions) := by
  induction run with
  | start => exact mirrors
  | step run hstep ih =>
    rw [run_append]
    exact ih.step hstep

theorem exists_mirrors {count : Nat} {t₀ : Tracker} (h : Tracker.ofCount count = .ok t₀) :
    ∃ s₀, ofCount count = .ok s₀ ∧ s₀.Mirrors t₀ := by
  obtain ⟨w, hw, rfl⟩ := ofCount_eq_ok h
  refine ⟨⟨∅, w, ∅⟩, ?_, rfl, rfl, ByNode.matches_empty⟩
  rw [ofCount, hw]
  rfl

/-- What stored conflicts tell of the actions that led to them: the live reports of the nodes that
were not removed, in no entry that is zero and under no node that has none, and the answers to the
reports that may follow. -/
structure Exact (count : Nat) (actions : List Action) (s : Stored) : Prop where
  count : ∀ node object, s.conflicts.count node object =
    if node ∈ removals actions then 0 else liveReports count actions node object
  kept : s.conflicts.Kept
  summary : ∀ node object n,
    (∃ listed, (node, listed) ∈ s.conflicts.summary ∧ (object, n) ∈ listed) ↔
      s.conflicts.count node object = n ∧ 0 < n
  containsNode : ∀ node,
    s.conflicts.containsNode node ↔ ∃ listed, (node, listed) ∈ s.conflicts.summary
  containsNode_iff : ∀ node,
    s.conflicts.containsNode node ↔ ∃ object, 0 < s.conflicts.count node object
  nodeCount : s.conflicts.nodeCount = s.conflicts.summary.length
  downCount : s.conflicts.downCount = (removals actions).dedup.length
  record : ∀ node object,
    s.conflicts.record s.window node object =
      if object = 0 then .error (.argument .absentConflict)
      else if node ∈ removals actions then .ok (false, s.conflicts, s.window)
      else .ok (true, s.conflicts.counted node object, s.window.recordConflict node object)
  refused : ∀ node object, object = 0 ∨ node ∈ removals actions →
    ∀ s', s.Step (.conflict node object) s' → s' = s

section Exact

variable {count : Nat} {actions : List Action} {s : Stored} {t : Tracker}

theorem Mirrors.exact (mirrors : s.Mirrors t) (heard : Heard actions t)
    (traced : Traced count actions t) : s.Exact count actions := by
  have hanswers := mirrors.conflicts.answers
  have hdown (node : NodeId) : s.conflicts.downs.contains node ↔ node ∈ removals actions := by
    rw [mirrors.conflicts.downs]
    exact heard.down node
  have hrecord (node : NodeId) (object : ObjectId) :
      s.conflicts.record s.window node object =
        if object = 0 then .error (.argument .absentConflict)
        else if node ∈ removals actions then .ok (false, s.conflicts, s.window)
        else .ok (true, s.conflicts.counted node object, s.window.recordConflict node object) := by
    simp only [ByNode.record_eq, hdown]
  constructor
  · intro node object
    rw [hanswers.count]
    exact heard.count_eq traced node object
  · exact mirrors.conflicts.kept
  · rw [hanswers.summary]
    simp only [hanswers.count]
    exact t.conflicts.summarised.counts
  · intro node
    rw [hanswers.summary, hanswers.containsNode]
    exact t.conflicts.summarised.containsNode node
  · exact fun node => mirrors.conflicts.kept.containsNode_iff
  · rw [hanswers.nodeCount, hanswers.summary]
    exact t.conflicts.summarised.nodeCount
  · rw [hanswers.downCount]
    exact heard.downCount_eq
  · exact hrecord
  · intro node object hrefused s' hstep
    cases hstep with
    | absent => rfl
    | conflict hanswer =>
      rw [hrecord] at hanswer
      split at hanswer
      next => cases hanswer
      next hobject =>
        rw [if_pos (hrefused.resolve_left hobject)] at hanswer
        cases hanswer
        rfl

end Exact

end Stored

/-- The conflicts tell the reports that are not older than the window, also where they are stored by
node. No node is then stored without counts, and no count as zero. -/
theorem conflict_window_exact {t₀ : Tracker} {count : Nat} (h : ofCount count = .ok t₀)
    (actions : List Action) :
    (∀ node object, (t₀.run actions).conflicts.count node object =
      if node ∈ removals actions then 0 else liveReports count actions node object) ∧
    (t₀.run actions).conflicts.Summarised ∧
    (t₀.run actions).conflicts.downCount = (removals actions).dedup.length ∧
    (∀ node object,
      if object = 0 then
        (t₀.run actions).recordConflict node object = .error (.argument .absentConflict)
      else if node ∈ removals actions then
        (t₀.run actions).recordConflict node object = .ok (false, t₀.run actions)
      else (t₀.run actions).recordConflict node object =
        .ok (true, (t₀.run actions).reported node object)) ∧
    (∀ node object, object = 0 ∨ node ∈ removals actions →
      (t₀.run actions).act (.conflict node object) = t₀.run actions) ∧
    ∃ s₀, Stored.ofCount count = .ok s₀ ∧ (∃ s, s₀.Run actions s) ∧
      ∀ s, s₀.Run actions s → s.Exact count actions ∧
        s.window = (t₀.run actions).window ∧ s.conflicts.Answers (t₀.run actions).conflicts := by
  have htraced := Traced.run h actions
  have hheard := Heard.run h actions
  refine ⟨hheard.count_eq htraced, Conflicts.summarised _, hheard.downCount_eq,
    hheard.recordConflict, fun _ _ => hheard.act_of_refused, ?_⟩
  obtain ⟨s₀, hs₀, hstart⟩ := Stored.exists_mirrors h
  refine ⟨s₀, hs₀, s₀.exists_run actions, fun s run => ?_⟩
  have hmirrors := hstart.run run
  exact ⟨hmirrors.exact hheard htraced, hmirrors.window, hmirrors.conflicts.answers⟩

theorem conflict_window_exact_removed : ∃ t₀, ofCount 1 = .ok t₀ ∧
    (t₀.run [.conflict 2 7, .prune, .conflict 1 7, .conflict 2 7, .prune, .conflict 2 7,
      .removeNode 1]).conflicts.count 2 7 = 2 ∧
    (t₀.run [.conflict 1 7, .removeNode 1, .conflict 1 7, .prune]).conflicts.count 1 7 = 0 ∧
    (t₀.run [.removeNode 1, .removeNode 1]).recordConflict 1 7 =
      .ok (false, t₀.run [.removeNode 1, .removeNode 1]) ∧
    ∃ s₀ s, Stored.ofCount 1 = .ok s₀ ∧
      s₀.Run [.conflict 1 7, .prune, .conflict 2 7, .prune] s ∧
      s.conflicts.containsNode 1 = false ∧ s.conflicts.count 2 7 = 1 := by
  have h : ofCount 1 = .ok ⟨∅, ∅, ⟨1, ∅, ∅⟩, ∅, .zero⟩ := rfl
  refine ⟨_, h, ?_, ?_, ?_, ?_⟩
  · rw [(conflict_window_exact h _).1]
    decide
  · rw [(conflict_window_exact h _).1]
    decide
  · exact (conflict_window_exact h [.removeNode 1, .removeNode 1]).2.2.2.1 1 7
  · obtain ⟨-, -, -, -, -, s₀, hs₀, ⟨s, run⟩, hall⟩ :=
      conflict_window_exact h [.conflict 1 7, .prune, .conflict 2 7, .prune]
    obtain ⟨hexact, -, hanswers⟩ := hall s run
    refine ⟨s₀, s, hs₀, run, ?_, ?_⟩
    · rw [hanswers.containsNode]
      decide
    · rw [hexact.count]
      decide

end Cohort.Tracker
