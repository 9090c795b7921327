import Cohort.Proofs.ExpiryOrder
import Cohort.Proofs.Separation
import Cohort.Proofs.Tampering

/-! What the report of a prune says is what the prune did: so many edges, vertices and conflicts
are gone, and so many edges have lost weight. It says so whatever the expired period holds, and in
whatever order that is gone through. -/

namespace Cohort

namespace Tally

variable {κ : Type} [Ord κ] [Std.TransOrd κ] [Std.LawfulEqOrd κ]

theorem mem_table {t : Tally κ} {key : κ} : key ∈ t.table ↔ t.count key ≠ 0 := by
  rw [← Std.ExtTreeMap.mem_keys, ← Nat.pos_iff_ne_zero]
  exact mem_keys

theorem size_pos {t : Tally κ} {key : κ} (h : t.count key ≠ 0) : 0 < t.size := by
  have hlisted := List.length_pos_of_mem (Std.ExtTreeMap.mem_keys.mpr (mem_table.mpr h))
  rwa [Std.ExtTreeMap.length_keys] at hlisted

theorem size_update (t : Tally κ) (key : κ) (f : Nat → Nat) :
    (t.update key f).size + (if t.count key = 0 then 0 else 1) =
      t.size + if f (t.count key) = 0 then 0 else 1 := by
  have hsize : (t.update key f).size = (t.table.alter key fun old =>
    if f (old.getD 0) = 0 then none else some (f (old.getD 0))).size := rfl
  have hcount : t.table[key]?.getD 0 = t.count key := rfl
  have hstart : t.table.size = t.size := rfl
  rw [hsize, Std.ExtTreeMap.size_alter, hcount, hstart]
  by_cases hold : t.count key = 0
  · by_cases hnew : f 0 = 0 <;> simp [mem_table, hold, hnew]
  · have hpositive := size_pos hold
    by_cases hnew : f (t.count key) = 0 <;> simp [mem_table, hold, hnew]
    omega

theorem size_subtract (t : Tally κ) (key : κ) (n : Nat) :
    (t.subtract key n).size + (if 0 < t.count key ∧ t.count key ≤ n then 1 else 0) = t.size := by
  have hsize := t.size_update key (· - n)
  change (t.subtract key n).size + _ = _ at hsize
  grind

end Tally

theorem Conflicts.size_expire (c : Conflicts) (expired : List ((NodeId × ObjectId) × Nat)) :
    (c.expire expired).2.counts.size + (c.expire expired).1 = c.counts.size := by
  induction expired using List.reverseRecOn with
  | nil => rfl
  | append_singleton expired entry ih =>
    have hstep := (c.expire expired).2.counts.size_subtract entry.1 entry.2
    rw [expire_concat, counts_settle, cleared_settle]
    omega

namespace AccessGraph

variable {g : AccessGraph} {order : List (EdgeKey × Nat)}

theorem Sound.decremented_edgeList (sound : g.Sound) (distinct : Distinct order) :
    (g.expire order).1.decremented = g.edgeList.countP fun (name, object, weight) =>
      ((g.expire order).2.edgeWeight name object).any (· < weight) := by
  have hsound := sound.expire order
  rw [sound.decremented_expire distinct, sound.edgeList_eq, List.countP_map]
  refine List.countP_congr fun pair _ => ?_
  cases hweight : (g.expire order).2.edgeWeight pair.1 pair.2 with
  | none => simp [hweight, use]
  | some weight =>
    have hpositive := (@Linked.use_pos _ hsound.toLinked pair.1 pair.2).mpr ⟨weight, hweight⟩
    rw [use_of_edgeWeight hweight] at hpositive ⊢
    simp [hweight, hpositive]

theorem Sound.kept_expire (sound : g.Sound) {name : Identity} {object : ObjectId}
    (h : ∀ key, g.key? name object = some key → Tally.share key order = 0) :
    (g.expire order).2.key? name object = g.key? name object ∧
      (g.expire order).2.edgeWeight name object = g.edgeWeight name object := by
  have hsound := sound.expire order
  have hweight (key : EdgeKey) (hkey : g.key? name object = some key) :
      (g.expire order).2.weightAt key = g.weightAt key := by
    rw [weightAt_expire, h key hkey, Nat.sub_zero]
  have hkeys : (g.expire order).2.key? name object = g.key? name object := by
    ext key
    rw [hsound.key?_eq_some, sound.ends?_expire]
    constructor
    · intro hends
      split at hends
      next => cases hends
      next => exact sound.key?_eq_some.mpr hends
    · intro hkey
      have hends := sound.key?_eq_some.mp hkey
      have hlive := sound.weightAt_pos.mpr ⟨_, hends⟩
      rw [hweight key hkey, if_neg (Nat.ne_of_gt hlive), hends]
  refine ⟨hkeys, ?_⟩
  rw [edgeWeight, edgeWeight, hkeys]
  cases hkey : g.key? name object with
  | none => rfl
  | some key =>
    rw [Option.bind_some, Option.bind_some, hsound.weightOf_eq, sound.weightOf_eq, hweight key hkey]

end AccessGraph

namespace Tracker

open AccessGraph Conflicts

theorem within_act {t : Tracker} (h : t.window.Within) (action : Action) :
    (t.act action).window.Within ∧ (t.act action).window.count = t.window.count := by
  cases action with
  | record name objects =>
    rw [act_record]
    split <;> exact ⟨h, rfl⟩
  | conflict node object =>
    rw [act_conflict]
    split <;> exact ⟨h, rfl⟩
  | removeNode node => exact ⟨h, rfl⟩
  | fold =>
    obtain ⟨places, counters, heq⟩ := t.act_fold
    rw [heq]
    exact ⟨h, rfl⟩
  | objectUse => exact ⟨h, rfl⟩
  | prune =>
    rw [act, window_prune]
    exact ⟨h.rotate, Window.count_rotate _⟩

theorem Tampered.within {t₀ t : Tracker} {history : List Change} (run : Tampered t₀ history t)
    (h : t₀.window.Within) : t.window.Within ∧ t.window.count = t₀.window.count := by
  induction run with
  | start => exact ⟨h, rfl⟩
  | act _ action ih =>
    obtain ⟨hwithin, hcount⟩ := within_act ih.1 action
    exact ⟨hwithin, hcount.trans ih.2⟩
  | noteEdges _ _ ih => exact ih
  | noteConflict _ _ _ ih => exact ih
  | lose _ ih => exact ⟨ih.1.rotate, (Window.count_rotate _).trans ih.2⟩
  | @prune _ t _ _ _ _ _ ih =>
    have hwindow := t.window_prune
    rw [pruneAs, hwindow]
    exact ⟨ih.1.rotate, (Window.count_rotate _).trans ih.2⟩

/-- The period that the next rotation hands back, an empty one while there is none. -/
def leaving (t : Tracker) : Period :=
  t.window.rotate.1.getD ∅

/-- A report against the trackers before and after the prune. -/
structure Accurate (before : Tracker) (report : PruneReport) (after : Tracker) : Prop where
  consumed : report.consumed = true ↔ before.window.queued = before.window.count + 1
  idle : report.consumed = false → report = ⟨false, .zero, 0⟩ ∧
    after.graph = before.graph ∧ after.conflicts = before.conflicts
  removed : after.graph.edgeCount + report.edges.removed = before.graph.edgeCount
  vertices : after.graph.identityCount + after.graph.objectCount + report.edges.vertices =
    before.graph.identityCount + before.graph.objectCount
  decremented : report.edges.decremented = before.graph.edgeList.countP
    fun (name, object, weight) => (after.graph.edgeWeight name object).any (· < weight)
  cleared : after.conflicts.counts.size + report.conflicts = before.conflicts.counts.size
  edges : ∀ name object, (∀ key, before.graph.key? name object = some key →
      before.leaving.edges.count key = 0) →
    after.graph.key? name object = before.graph.key? name object ∧
      after.graph.edgeWeight name object = before.graph.edgeWeight name object
  counts : ∀ node object, before.leaving.conflicts.count (node, object) = 0 →
    after.conflicts.count node object = before.conflicts.count node object

section Report

variable (t : Tracker)

theorem prune_leaving_edges :
    (t.prune.1.edges, t.prune.2.graph) = t.graph.expire t.leaving.edges.entries := by
  rw [prune_edges, leaving]
  cases t.window.rotate.1 <;> rfl

theorem prune_leaving_conflicts :
    (t.prune.1.conflicts, t.prune.2.conflicts) =
      t.conflicts.expire t.leaving.conflicts.entries := by
  rw [prune_conflicts, leaving]
  cases t.window.rotate.1 <;> rfl

theorem consumed_iff (within : t.window.Within) :
    t.prune.1.consumed = true ↔ t.window.queued = t.window.count + 1 := by
  rw [prune_consumed, Window.rotate_fst within, isSome_getElem?, Window.length_latest,
    Window.queued]
  unfold Window.Within at within
  omega

end Report

section Orders

variable {t : Tracker} {order : List (EdgeKey × Nat)}

theorem leaving_of_idle (h : t.prune.1.consumed = false) : t.leaving = ∅ := by
  rw [prune_consumed, Option.isSome_eq_false_iff, Option.isNone_iff_eq_none] at h
  rw [leaving, h, Option.getD_none]

theorem accurate_pruneAs (sound : t.graph.Sound) (within : t.window.Within)
    (listed : order.Perm t.leaving.edges.entries) : Accurate t t.prune.1 (t.pruneAs order) := by
  have hdistinct := (distinct_entries t.leaving.edges).perm listed.symm
  have hedges : t.prune.1.edges = (t.graph.expire order).1 :=
    (congrArg Prod.fst t.prune_leaving_edges).trans (sound.report_perm hdistinct listed).symm
  have hcleared : t.prune.1.conflicts = (t.conflicts.expire t.leaving.conflicts.entries).1 :=
    congrArg Prod.fst t.prune_leaving_conflicts
  have hconflicts : (t.pruneAs order).conflicts =
      (t.conflicts.expire t.leaving.conflicts.entries).2 :=
    congrArg Prod.snd t.prune_leaving_conflicts
  have hgraph : (t.pruneAs order).graph = (t.graph.expire order).2 := rfl
  obtain ⟨hremoved, hvertices⟩ := sound.size_expire order
  rw [sound.vertexCount_eq, (sound.expire order).vertexCount_eq] at hvertices
  constructor
  · exact t.consumed_iff within
  · intro hidle
    rw [leaving_of_idle hidle] at listed hcleared hconflicts
    rw [Period.edges_empty, Tally.entries_empty, List.perm_nil] at listed
    subst listed
    exact ⟨PruneReport.mk.injEq .. |>.mpr ⟨hidle, hedges, hcleared⟩, hgraph, hconflicts⟩
  · rw [hedges, hgraph, Nat.add_comm, hremoved]
  · rw [hedges, hgraph, Nat.add_comm, hvertices]
  · rw [hedges, hgraph, sound.decremented_edgeList hdistinct]
  · rw [hconflicts, hcleared]
    exact size_expire ..
  · intro name object hquiet
    rw [hgraph]
    refine sound.kept_expire fun key hkey => ?_
    rw [Ledger.share_order listed, hquiet key hkey]
  · intro node object hquiet
    rw [hconflicts, count_expire, Tally.share_entries, hquiet, Nat.sub_zero]

end Orders

def pruneAlong (t : Tracker) (edges : List (EdgeKey × Nat)) (walk : NodeWalk) :
    PruneReport × Tracker :=
  let rotated := { t with window := t.window.rotate.2, counters := t.counters.countPrune }
  match t.window.rotate.1 with
  | none => (⟨false, .zero, 0⟩, rotated)
  | some _ =>
    let (decayed, graph) := t.graph.expire edges
    let (cleared, conflicts) := t.conflicts.expireNodes walk
    (⟨true, decayed, cleared⟩, { rotated with graph, conflicts })

theorem pruneAlong_eq {t : Tracker} (sound : t.graph.Sound) {edges : List (EdgeKey × Nat)}
    (hedges : edges.Perm t.leaving.edges.entries) {walk : NodeWalk}
    (hwalk : walk.entries.Perm t.leaving.conflicts.entries) :
    t.pruneAlong edges walk = (t.prune.1, t.pruneAs edges) := by
  cases h : t.window.rotate.1 with
  | none =>
    rw [leaving, h, Option.getD_none, Period.edges_empty, Tally.entries_empty,
      List.perm_nil] at hedges
    rw [pruneAlong, h, pruneAs, prune_of_none h, hedges]
    rfl
  | some period =>
    rw [leaving, h, Option.getD_some] at hedges hwalk
    have hdistinct := (distinct_entries period.edges).perm hedges.symm
    have hnodup := ((hwalk.map (·.1)).nodup_iff).mpr period.conflicts.nodup_keys
    rw [pruneAlong, h, pruneAs, prune_of_some h, expireNodes_eq, expire_perm hwalk hnodup,
      ← sound.report_perm hdistinct hedges]

end Tracker

open AccessGraph Conflicts Tracker

/-- As many edges, vertices and conflicts are gone after a prune as it reports, whatever became of
the tracker before and in whatever order the period is gone through. -/
theorem prune_reports_accurate {count : Nat} {t₀ t : Tracker} {history : List Change}
    (h : ofCount count = .ok t₀) (run : Tampered t₀ history t) :
    t.window.count = count ∧ Accurate t t.prune.1 t.prune.2 ∧
    ∀ edges walk, edges.Perm t.leaving.edges.entries →
      walk.entries.Perm t.leaving.conflicts.entries →
        (t.pruneAlong edges walk).1 = t.prune.1 ∧
          Accurate t (t.pruneAlong edges walk).1 (t.pruneAlong edges walk).2 := by
  have sound := run.sound h
  obtain ⟨w, hw, rfl⟩ := ofCount_eq_ok h
  obtain ⟨within, hcount⟩ := run.within (Window.within_of_ofCount hw)
  refine ⟨hcount.trans (Window.count_of_ofCount hw), ?_, fun edges walk hedges hwalk => ?_⟩
  · have haccurate := accurate_pruneAs sound within (List.Perm.refl t.leaving.edges.entries)
    rwa [pruneAs, ← t.prune_leaving_edges] at haccurate
  · rw [pruneAlong_eq sound hedges hwalk]
    exact ⟨rfl, accurate_pruneAs sound within hedges⟩

theorem prune_reports_accurate_tampered : ∃ t₀ history t, ofCount 1 = .ok t₀ ∧
    Tampered t₀ history t ∧ t.leaving.edges.entries = [(⟨0, 0⟩, 1), (⟨1, 0⟩, 2)] ∧
    t.leaving.conflicts.entries = [((1, 7), 1), ((2, 9), 1)] ∧
    (t.pruneAlong [(⟨1, 0⟩, 2), (⟨0, 0⟩, 1)] [(2, [(9, 1)]), (1, [(7, 1)])]).1 =
      ⟨true, ⟨1, 1, 1⟩, 1⟩ ∧
    Accurate t ⟨true, ⟨1, 1, 1⟩, 1⟩ t.prune.2 := by
  have hcount : ofCount 1 = .ok ⟨∅, ∅, ⟨1, ∅, ∅⟩, ∅, .zero⟩ := rfl
  have begun := ((@Tampered.start ⟨∅, ∅, ⟨1, ∅, ∅⟩, ∅, .zero⟩).noteEdges [⟨4, 0⟩]).lose
  have counted := (begun.act (.record "a" [7])).act (.record "b" [7])
  have noted := (counted.noteEdges [⟨1, 0⟩]).noteConflict 2 9
  have run := (noted.act (.conflict 1 7)).lose.act (.record "a" [7])
  obtain ⟨-, haccurate, horder⟩ := prune_reports_accurate hcount run
  refine ⟨_, _, _, hcount, run, by decide, by decide, ?_, haccurate⟩
  exact (horder _ _ (by decide) (by decide)).1

end Cohort
