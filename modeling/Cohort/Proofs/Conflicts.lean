import Cohort.Proofs.SlidingWindow
import Mathlib.Data.List.Dedup

/-! The live conflicts by themselves: what the periods of the window say of a pair, what subtracting
an expired period leaves, and how the nodes, their counts and the summary go together. -/

namespace Cohort

theorem Tally.mem_keys {κ : Type} [Ord κ] [Std.TransOrd κ] [Std.LawfulEqOrd κ] {t : Tally κ}
    {key : κ} : key ∈ t.keys ↔ 0 < t.count key := by
  rw [keys, Std.ExtTreeMap.mem_keys, Std.ExtTreeMap.mem_iff_isSome_getElem?, getElem?_table]
  split
  next hzero => simp [hzero]
  next hpositive => simp [Nat.pos_of_ne_zero hpositive]

namespace Window

def reports (w : Window) : List (Tally (NodeId × ObjectId)) :=
  w.latest.map (·.conflicts)

/-- How often a pair was reported in the open period and in so many periods before it. -/
def heard (w : Window) (closed : Nat) (pair : NodeId × ObjectId) : Nat :=
  addUp ((w.reports.take (closed + 1)).map (·.count pair))

theorem reports_eq (w : Window) :
    w.reports = w.opened.conflicts :: (w.closed.toList.map (·.conflicts)).reverse := by
  rw [reports, latest, List.map_cons, List.map_reverse]

theorem reports_recordEdges (w : Window) (keys : List Key) :
    (w.recordEdges keys).reports = w.reports := by
  rw [reports_eq, reports_eq]
  change (w.opened.addEdges keys).conflicts :: _ = _
  rw [Period.conflicts_addEdges]
  rfl

theorem reports_recordConflict (w : Window) (node : NodeId) (object : ObjectId) :
    (w.recordConflict node object).reports =
      w.opened.conflicts.add (node, object) 1 :: (w.closed.toList.map (·.conflicts)).reverse :=
  reports_eq _

theorem heard_recordConflict (w : Window) (node : NodeId) (object : ObjectId) (closed : Nat)
    (pair : NodeId × ObjectId) : (w.recordConflict node object).heard closed pair =
      w.heard closed pair + if (node, object) = pair then 1 else 0 := by
  rw [heard, heard, reports_recordConflict, reports_eq]
  simp only [List.take_succ_cons, List.map_cons, addUp_cons, Tally.count_add,
    Std.compare_eq_iff_eq]
  split
  next hpair => rw [hpair, Nat.add_right_comm]
  next => rfl

theorem heard_all (w : Window) (pair : NodeId × ObjectId) :
    w.heard w.closed.size pair = addUp (w.latest.map (·.conflicts.count pair)) := by
  have hlength : w.reports.length ≤ w.closed.size + 1 := by
    rw [reports, List.length_map, length_latest]
  rw [heard, List.take_of_length_le hlength, reports, List.map_map]
  rfl

variable {w : Window}

theorem reports_rotate (h : w.Within) : w.rotate.2.reports = (∅ :: w.reports).take (w.count + 1) :=
  map_latest_rotate h (·.conflicts)

theorem heard_rotate_zero (h : w.Within) (pair : NodeId × ObjectId) :
    w.rotate.2.heard 0 pair = 0 := by
  simp [heard, reports_rotate h]

theorem heard_rotate_succ (h : w.Within) {closed : Nat} (hcount : closed + 1 ≤ w.count)
    (pair : NodeId × ObjectId) : w.rotate.2.heard (closed + 1) pair = w.heard closed pair := by
  rw [heard, reports_rotate h, List.take_take, Nat.min_eq_left (Nat.succ_le_succ hcount),
    List.take_succ_cons, List.map_cons, addUp_cons, Tally.count_empty, Nat.zero_add, heard]

end Window

namespace Conflicts

section Expire

def settle (state : Nat × Conflicts) (entry : (NodeId × ObjectId) × Nat) : Nat × Conflicts :=
  let live := state.2.counts.count entry.1
  (if 0 < live ∧ live ≤ entry.2 then state.1 + 1 else state.1,
    { state.2 with counts := state.2.counts.subtract entry.1 entry.2 })

@[simp] theorem counts_settle (state : Nat × Conflicts) (entry : (NodeId × ObjectId) × Nat) :
    (settle state entry).2.counts = state.2.counts.subtract entry.1 entry.2 :=
  rfl

@[simp] theorem downs_settle (state : Nat × Conflicts) (entry : (NodeId × ObjectId) × Nat) :
    (settle state entry).2.downs = state.2.downs :=
  rfl

theorem cleared_settle (state : Nat × Conflicts) (entry : (NodeId × ObjectId) × Nat) :
    (settle state entry).1 = state.1 +
      if 0 < state.2.counts.count entry.1 ∧ state.2.counts.count entry.1 ≤ entry.2
        then 1 else 0 := by
  unfold settle
  dsimp only
  split <;> rfl

theorem expire_eq_foldl (c : Conflicts) (expired : List ((NodeId × ObjectId) × Nat)) :
    c.expire expired = expired.foldl settle (0, c) :=
  rfl

theorem expire_concat (c : Conflicts) (expired : List ((NodeId × ObjectId) × Nat))
    (entry : (NodeId × ObjectId) × Nat) :
    c.expire (expired ++ [entry]) = settle (c.expire expired) entry := by
  simp only [expire_eq_foldl, List.foldl_concat]

theorem downs_expire (c : Conflicts) (expired : List ((NodeId × ObjectId) × Nat)) :
    (c.expire expired).2.downs = c.downs := by
  induction expired using List.reverseRecOn with
  | nil => rfl
  | append_singleton expired entry ih => rwa [expire_concat, downs_settle]

theorem count_expire (c : Conflicts) (expired : List ((NodeId × ObjectId) × Nat)) (node : NodeId)
    (object : ObjectId) : (c.expire expired).2.count node object =
      c.count node object - Tally.share (node, object) expired := by
  induction expired using List.reverseRecOn with
  | nil => rfl
  | append_singleton expired entry ih =>
    rw [Tally.share_append, Tally.share_cons, Tally.share_nil, Nat.add_zero, ← Nat.sub_sub, ← ih,
      count, expire_concat, counts_settle, Tally.count_subtract]
    split
    next hpair =>
      rw [Std.LawfulEqCmp.eq_of_compare hpair]
      rfl
    next => rfl

end Expire

section Summary

variable {c : Conflicts} {node : NodeId}

theorem mem_countsOf {object : ObjectId} {n : Nat} :
    (object, n) ∈ c.countsOf node ↔ c.count node object = n ∧ 0 < n := by
  rw [count, ← Tally.mem_entries, countsOf, List.mem_filterMap]
  constructor
  · rintro ⟨⟨⟨other, seen⟩, m⟩, hmem, hsome⟩
    simp only [Option.ite_none_right_eq_some, Option.some.injEq, Prod.mk.injEq] at hsome
    obtain ⟨rfl, rfl, rfl⟩ := hsome
    exact hmem
  · intro hmem
    exact ⟨_, hmem, if_pos rfl⟩

theorem mem_nodes : node ∈ c.nodes ↔ ∃ object, 0 < c.count node object := by
  simp only [nodes, Std.ExtTreeSet.mem_toList, Std.ExtTreeSet.mem_ofList, List.contains_iff_mem,
    List.mem_map, Tally.mem_keys, count, Prod.exists, exists_and_right, exists_eq_right]

theorem containsNode_iff : c.containsNode node ↔ ∃ object, 0 < c.count node object := by
  simp only [containsNode, List.any_eq_true, Tally.mem_keys, beq_iff_eq, count, Prod.exists]
  constructor
  · rintro ⟨_, object, hpositive, rfl⟩
    exact ⟨object, hpositive⟩
  · rintro ⟨object, hpositive⟩
    exact ⟨node, object, hpositive, rfl⟩

theorem nodes_ascending (c : Conflicts) : c.nodes.Pairwise (· < ·) :=
  Std.ExtTreeSet.ordered_toList.imp Nat.compare_eq_lt.mp

theorem countsOf_ascending (c : Conflicts) (node : NodeId) :
    (c.countsOf node).Pairwise fun x y => x.1 < y.1 := by
  have hordered : c.counts.entries.Pairwise fun x y => compare x.1 y.1 = .lt :=
    Std.ExtTreeMap.ordered_keys_toList
  rw [countsOf, List.pairwise_filterMap]
  refine hordered.imp ?_
  rintro ⟨⟨first, object⟩, n⟩ ⟨⟨second, object'⟩, n'⟩ hlt x hx y hy
  simp only [Option.ite_none_right_eq_some, Option.some.injEq] at hx hy
  obtain ⟨rfl, rfl⟩ := hx
  obtain ⟨rfl, rfl⟩ := hy
  simpa [compare_pair, Nat.compare_eq_lt] using hlt

/-- The summary lists every positive count once, by node and then by object and under no node that
has none, and the questions about nodes are answered from it. -/
structure Summarised (c : Conflicts) : Prop where
  counts : ∀ node object n, (∃ listed, (node, listed) ∈ c.summary ∧ (object, n) ∈ listed) ↔
    c.count node object = n ∧ 0 < n
  nonempty : ∀ entry ∈ c.summary, entry.2 ≠ []
  nodes : c.summary.Pairwise fun x y => x.1 < y.1
  objects : ∀ entry ∈ c.summary, entry.2.Pairwise fun x y => x.1 < y.1
  containsNode : ∀ node, c.containsNode node ↔ ∃ listed, (node, listed) ∈ c.summary
  nodeCount : c.nodeCount = c.summary.length

theorem mem_summary {listed : List (ObjectId × Nat)} : (node, listed) ∈ c.summary ↔
    (∃ object, 0 < c.count node object) ∧ listed = c.countsOf node := by
  rw [summary, List.mem_map, ← mem_nodes]
  constructor
  · rintro ⟨other, hmem, heq⟩
    obtain ⟨rfl, rfl⟩ := Prod.mk.inj heq
    exact ⟨hmem, rfl⟩
  · rintro ⟨hmem, rfl⟩
    exact ⟨node, hmem, rfl⟩

theorem summarised (c : Conflicts) : c.Summarised where
  counts node object n := by
    simp only [mem_summary]
    constructor
    · rintro ⟨_, ⟨-, rfl⟩, hmem⟩
      exact mem_countsOf.mp hmem
    · rintro ⟨hcount, hpositive⟩
      exact ⟨_, ⟨⟨object, hcount ▸ hpositive⟩, rfl⟩, mem_countsOf.mpr ⟨hcount, hpositive⟩⟩
  nonempty := by
    rintro ⟨node, listed⟩ hmem
    obtain ⟨⟨object, hpositive⟩, rfl⟩ := mem_summary.mp hmem
    exact List.ne_nil_of_mem (mem_countsOf.mpr ⟨rfl, hpositive⟩)
  nodes := List.pairwise_map.mpr c.nodes_ascending
  objects := by
    rintro ⟨node, listed⟩ hmem
    obtain ⟨-, rfl⟩ := mem_summary.mp hmem
    exact c.countsOf_ascending node
  containsNode node := by simp [containsNode_iff, mem_summary]
  nodeCount := by rw [nodeCount, summary, List.length_map]

end Summary

end Conflicts

end Cohort
