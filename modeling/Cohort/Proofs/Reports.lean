import Cohort.Proofs.Conflicts

/-! What the live conflicts say of the past. The count of a node and an object is the number of
reports since the prune that lies as many prunes back as the window retains periods, until the node
is removed; from then on it is zero, whatever the window still holds of the node. -/

namespace Cohort.Tracker

namespace Action

def isReport (node : NodeId) (object : ObjectId) : Action → Bool
  | .conflict other seen => other == node && seen == object && !ObjectId.isAbsent seen
  | _ => false

def removed? : Action → Option NodeId
  | .removeNode node => some node
  | _ => none

end Action

def reports (node : NodeId) (object : ObjectId) (actions : List Action) : Nat :=
  actions.countP (Action.isReport node object)

def removals (actions : List Action) : List NodeId :=
  actions.filterMap Action.removed?

theorem reports_append (node : NodeId) (object : ObjectId) (actions rest : List Action) :
    reports node object (actions ++ rest) =
      reports node object actions + reports node object rest :=
  List.countP_append

section Prune

variable (t : Tracker)

theorem window_prune : t.prune.2.window = t.window.rotate.2 :=
  t.prune_round.window

theorem downs_prune : t.prune.2.conflicts.downs = t.conflicts.downs := by
  cases h : t.window.rotate.1 with
  | none => rw [prune_of_none h]
  | some period =>
    rw [prune_of_some h]
    exact Conflicts.downs_expire ..

theorem count_prune (node : NodeId) (object : ObjectId) :
    t.prune.2.conflicts.count node object = t.conflicts.count node object -
      addUp (t.window.rotate.1.toList.map (·.conflicts.count (node, object))) := by
  cases h : t.window.rotate.1 with
  | none =>
    rw [prune_of_none h]
    rfl
  | some period =>
    rw [prune_of_some h, Option.toList_some, List.map_singleton, addUp_cons, addUp_nil,
      Nat.add_zero, ← Tally.share_entries]
    exact Conflicts.count_expire ..

end Prune

/-- Conflicts and their history: a removed node has no counts, and for any other the whole window
tells its counts, and the periods from any one on tell the reports since the prune that opened
it. -/
structure Heard (actions : List Action) (t : Tracker) : Prop where
  down : ∀ node, t.conflicts.isDown node ↔ node ∈ removals actions
  gone : ∀ node ∈ removals actions, ∀ object, t.conflicts.count node object = 0
  count : ∀ node ∉ removals actions, ∀ object,
    t.conflicts.count node object = t.window.heard t.window.closed.size (node, object)
  reports : ∀ node ∉ removals actions, ∀ object j, j ≤ t.window.closed.size →
    t.window.heard j (node, object) =
      Tracker.reports node object (afterPrune (prunes actions - j) actions)

theorem heard_ofCount {count : Nat} {t : Tracker} (h : ofCount count = .ok t) : Heard [] t := by
  obtain ⟨w, hw, rfl⟩ := ofCount_eq_ok h
  obtain ⟨-, -, rfl⟩ := Window.ofCount_eq_ok.mp hw
  refine ⟨fun node => ?_, nofun, fun _ _ _ => rfl, fun node _ object j hj => ?_⟩
  · change (∅ : Std.ExtTreeSet NodeId).contains node ↔ _
    simp [removals]
  · obtain rfl : j = 0 := Nat.le_zero.mp hj
    rfl

section Steps

variable {count : Nat} {actions : List Action} {t : Tracker}

theorem Heard.quiet (heard : Heard actions t) {action : Action} {t' : Tracker}
    (hprune : action.isPrune = false) (hremoved : action.removed? = none)
    (hreport : ∀ node ∉ removals actions, ∀ object, action.isReport node object = false)
    (hconflicts : t'.conflicts = t.conflicts) (hclosed : t'.window.closed = t.window.closed)
    (hreports : t'.window.reports = t.window.reports) : Heard (actions ++ [action]) t' := by
  have hremovals : removals (actions ++ [action]) = removals actions := by
    simp [removals, hremoved]
  have hprunes : prunes (actions ++ [action]) = prunes actions := by
    simp [prunes, hprune]
  have hheard (j : Nat) (pair : NodeId × ObjectId) : t'.window.heard j pair =
      t.window.heard j pair := by
    rw [Window.heard, hreports, Window.heard]
  constructor
  · rw [hconflicts, hremovals]
    exact heard.down
  · rw [hconflicts, hremovals]
    exact heard.gone
  · rw [hconflicts, hremovals, hclosed]
    simp only [hheard]
    exact heard.count
  · intro node hnode object j hj
    rw [hremovals] at hnode
    rw [hclosed] at hj
    rw [hheard, hprunes, heard.reports node hnode object j hj,
      afterPrune_append (Nat.sub_le _ _), reports_append]
    simp [Tracker.reports, hreport node hnode object]

theorem Heard.report (heard : Heard actions t) {node : NodeId} {object : ObjectId}
    (hnode : node ∉ removals actions) (hobject : object ≠ 0) :
    Heard (actions ++ [.conflict node object]) (t.reported node object) := by
  have hremovals : removals (actions ++ [.conflict node object]) = removals actions := by
    simp [removals, Action.removed?]
  have hprunes : prunes (actions ++ [.conflict node object]) = prunes actions := by
    simp [prunes, Action.isPrune]
  have hcount (other : NodeId) (seen : ObjectId) :
      (t.reported node object).conflicts.count other seen =
        t.conflicts.count other seen + if (node, object) = (other, seen) then 1 else 0 := by
    simp only [Conflicts.count, reported, Tally.count_add, Std.compare_eq_iff_eq]
    split
    next hpair => rw [hpair]
    next => rfl
  have hadded (other : NodeId) (seen : ObjectId) :
      Tracker.reports other seen [.conflict node object] =
        if (node, object) = (other, seen) then 1 else 0 := by
    simp [Tracker.reports, Action.isReport, ObjectId.isAbsent, hobject, List.countP_cons]
  constructor
  · rw [hremovals]
    exact heard.down
  · rw [hremovals]
    intro other hother seen
    have hne : (node, object) ≠ (other, seen) := by
      rintro ⟨⟩
      exact hnode hother
    rw [hcount, heard.gone other hother seen, if_neg hne]
  · rw [hremovals]
    intro other hother seen
    rw [hcount, heard.count other hother seen]
    exact (t.window.heard_recordConflict ..).symm
  · intro other hother seen j hj
    rw [hremovals] at hother
    rw [hprunes, afterPrune_append (Nat.sub_le _ _), reports_append, hadded,
      ← heard.reports other hother seen j hj]
    exact t.window.heard_recordConflict ..

theorem Heard.removeNode (heard : Heard actions t) (node : NodeId) :
    Heard (actions ++ [.removeNode node]) (t.removeNode node) := by
  have hremovals : removals (actions ++ [.removeNode node]) = removals actions ++ [node] := by
    simp [removals, Action.removed?]
  have hprunes : prunes (actions ++ [.removeNode node]) = prunes actions := by
    simp [prunes, Action.isPrune]
  have hcount (other : NodeId) (object : ObjectId) :
      (t.removeNode node).conflicts.count other object =
        if other = node then 0 else t.conflicts.count other object :=
    Conflicts.count_removeNode ..
  constructor
  · intro other
    rw [hremovals, List.mem_append, List.mem_singleton, ← heard.down]
    change (t.conflicts.downs.insert node).contains other ↔ _
    rw [Std.ExtTreeSet.contains_insert, Bool.or_eq_true, beq_iff_eq, Std.compare_eq_iff_eq,
      or_comm, @eq_comm _ node]
    rfl
  · intro other hother object
    rw [hremovals, List.mem_append, List.mem_singleton] at hother
    rw [hcount]
    split
    next => rfl
    next hne => exact heard.gone other (hother.resolve_right hne) object
  · intro other hother object
    rw [hremovals, List.mem_append, List.mem_singleton, not_or] at hother
    rw [hcount, if_neg hother.2]
    exact heard.count other hother.1 object
  · intro other hother object j hj
    rw [hremovals, List.mem_append, List.mem_singleton, not_or] at hother
    rw [hprunes, afterPrune_append (Nat.sub_le _ _), reports_append]
    exact heard.reports other hother.1 object j hj

theorem Heard.prune (heard : Heard actions t) (traced : Traced count actions t) :
    Heard (actions ++ [.prune]) t.prune.2 := by
  have hremovals : removals (actions ++ [.prune]) = removals actions := by
    simp [removals, Action.removed?]
  have hprunes : prunes (actions ++ [.prune]) = prunes actions + 1 := prunes_append ..
  have hwithin : t.window.Within := traced.balanced.within
  constructor
  · intro node
    rw [hremovals, ← heard.down, Conflicts.isDown, Conflicts.isDown, downs_prune]
  · intro node hnode object
    rw [hremovals] at hnode
    rw [count_prune, heard.gone node hnode object, Nat.zero_sub]
  · intro node hnode object
    rw [hremovals] at hnode
    have hrotate := t.window.addUp_rotate (·.conflicts.count (node, object))
      (Tally.count_empty _)
    rw [count_prune, heard.count node hnode object, window_prune, Window.heard_all,
      Window.heard_all]
    omega
  · intro node hnode object j hj
    rw [hremovals] at hnode
    rw [window_prune] at hj ⊢
    rw [hprunes]
    -- the period just opened tells nothing, and any other is one further back than before
    cases j with
    | zero =>
      have hgone : afterPrune (prunes actions + 1 - 0) (actions ++ [.prune]) = [] :=
        afterPrune_append_of_lt 0 actions [.prune]
      rw [hgone, Window.heard_rotate_zero hwithin]
      rfl
    | succ i =>
      rw [Window.size_closed_rotate hwithin] at hj
      rw [Window.heard_rotate_succ hwithin (by omega), heard.reports node hnode object i (by omega),
        Nat.add_sub_add_right, afterPrune_append (Nat.sub_le _ _), reports_append]
      rfl

theorem Heard.act (heard : Heard actions t) (traced : Traced count actions t) (action : Action) :
    Heard (actions ++ [action]) (t.act action) := by
  cases action with
  | record name objects =>
    rw [act_record]
    split
    next => exact heard.quiet rfl rfl (fun _ _ _ => rfl) rfl rfl (Window.reports_recordEdges ..)
    next => exact heard.quiet rfl rfl (fun _ _ _ => rfl) rfl rfl rfl
  | conflict node object =>
    rcases t.recordConflict_cases node object with ⟨habsent, heq⟩ | ⟨-, hdown, heq⟩ |
      ⟨hobject, hup, heq⟩
    · simp only [Tracker.act, heq]
      refine heard.quiet rfl rfl (fun _ _ _ => ?_) rfl rfl rfl
      simp [Action.isReport, ObjectId.isAbsent, habsent]
    · simp only [Tracker.act, heq]
      refine heard.quiet rfl rfl (fun other hother _ => ?_) rfl rfl rfl
      have hne : node ≠ other := fun hsame => hother ((heard.down other).mp (hsame ▸ hdown))
      simp [Action.isReport, hne]
    · simp only [Tracker.act, heq]
      exact heard.report (fun hmem => hup ((heard.down node).mpr hmem)) hobject
  | removeNode node => exact heard.removeNode node
  | fold =>
    obtain ⟨places, counters, heq⟩ := t.act_fold
    rw [heq]
    exact heard.quiet rfl rfl (fun _ _ _ => rfl) rfl rfl rfl
  | objectUse => exact heard.quiet rfl rfl (fun _ _ _ => rfl) rfl rfl rfl
  | prune => exact heard.prune traced

end Steps

theorem Heard.run {count : Nat} {t : Tracker} (h : ofCount count = .ok t)
    (actions : List Action) : Heard actions (t.run actions) := by
  induction actions using List.reverseRecOn with
  | nil => exact heard_ofCount h
  | append_singleton actions action ih =>
    rw [run_append]
    exact ih.act (Traced.run h actions) action

/-- The reports since the prune that lies as many prunes back as the window retains periods. -/
def liveReports (count : Nat) (actions : List Action) (node : NodeId) (object : ObjectId) : Nat :=
  reports node object (afterPrune (prunes actions - count) actions)

section Exact

variable {count : Nat} {actions : List Action} {t : Tracker}

theorem Heard.count_eq (heard : Heard actions t) (traced : Traced count actions t) (node : NodeId)
    (object : ObjectId) : t.conflicts.count node object =
      if node ∈ removals actions then 0 else liveReports count actions node object := by
  split
  next hgone => exact heard.gone node hgone object
  next hnode =>
    have hsub : prunes actions - t.window.closed.size = prunes actions - count := by
      have hclosed := traced.closed
      omega
    rw [heard.count node hnode object, heard.reports node hnode object _ (Nat.le_refl _), hsub,
      liveReports]

theorem Heard.downCount_eq (heard : Heard actions t) :
    t.conflicts.downCount = (removals actions).dedup.length := by
  have hperm : t.conflicts.downs.toList.Perm (removals actions).dedup := by
    rw [List.perm_ext_iff_of_nodup (nodup_toList _) (List.nodup_dedup _)]
    intro node
    rw [List.mem_dedup, ← heard.down, Std.ExtTreeSet.mem_toList]
    rfl
  rw [Conflicts.downCount, ← Std.ExtTreeSet.length_toList, hperm.length_eq]

theorem Heard.recordConflict (heard : Heard actions t) (node : NodeId) (object : ObjectId) :
    if object = 0 then t.recordConflict node object = .error (.argument .absentConflict)
    else if node ∈ removals actions then t.recordConflict node object = .ok (false, t)
    else t.recordConflict node object = .ok (true, t.reported node object) := by
  rcases t.recordConflict_cases node object with ⟨habsent, heq⟩ | ⟨hobject, hdown, heq⟩ |
    ⟨hobject, hup, heq⟩
  · rwa [if_pos habsent]
  · rwa [if_neg hobject, if_pos ((heard.down node).mp hdown)]
  · rwa [if_neg hobject, if_neg fun hmem => hup ((heard.down node).mpr hmem)]

theorem Heard.act_of_refused (heard : Heard actions t) {node : NodeId} {object : ObjectId}
    (hrefused : object = 0 ∨ node ∈ removals actions) : t.act (.conflict node object) = t := by
  have hanswer := heard.recordConflict node object
  by_cases habsent : object = 0
  · rw [if_pos habsent] at hanswer
    simp only [Tracker.act, hanswer]
  · rw [if_neg habsent, if_pos (hrefused.resolve_left habsent)] at hanswer
    simp only [Tracker.act, hanswer]

end Exact

end Cohort.Tracker
