import Cohort.Proofs.AccessGraph.Expiry
import Cohort.Proofs.AccessGraph.Histories
import Cohort.Proofs.Conflicts

/-! Expired amounts come in no particular order. The order decides which edge takes a shared vertex
with it and which slots are filled next, but no weight, no count and no report. -/

namespace Cohort

namespace AccessGraph

variable {g h : AccessGraph}

theorem Linked.alike_of_keys (linked : g.Linked) (linked' : h.Linked)
    (hends : ∀ key, g.ends? key = h.ends? key)
    (hweight : ∀ key, g.weightAt key = h.weightAt key) : g.Alike h := by
  intro name object
  ext weight
  simp only [linked.edgeWeight_eq_some, linked'.edgeWeight_eq_some, linked.weightOf_eq,
    linked'.weightOf_eq, hends, hweight]

section Orders

variable {order order' : List (EdgeKey × Nat)}

theorem Sound.alike_expire (sound : g.Sound) (hperm : order.Perm order') :
    (g.expire order).2.Alike (g.expire order').2 := by
  have hweight (key : EdgeKey) :
      (g.expire order).2.weightAt key = (g.expire order').2.weightAt key := by
    rw [weightAt_expire, weightAt_expire, Tally.share_perm hperm]
  refine (sound.expire order).alike_of_keys (sound.expire order').toLinked (fun key => ?_) hweight
  rw [sound.ends?_expire, sound.ends?_expire, hweight]

theorem Distinct.perm (distinct : Distinct order) (hperm : order.Perm order') :
    Distinct order' where
  nodup := ((hperm.map (·.1)).nodup_iff).mp distinct.nodup
  positive entry hmem := distinct.positive entry (hperm.mem_iff.mpr hmem)

theorem Sound.report_perm (sound : g.Sound) (distinct : Distinct order)
    (hperm : order.Perm order') : (g.expire order).1 = (g.expire order').1 :=
  Alike.report_expire (fun _ _ => rfl) sound sound distinct (distinct.perm hperm)
    (sound.alike_expire hperm)

end Orders

end AccessGraph

namespace Conflicts

variable {c : Conflicts}

theorem settle_of_absent {entry : (NodeId × ObjectId) × Nat} (h : c.counts.count entry.1 = 0)
    (cleared : Nat) : settle (cleared, c) entry = (cleared, c) := by
  have hsame : c.counts.subtract entry.1 entry.2 = c.counts := by
    ext key
    rw [Tally.count_subtract]
    split
    next hkey => rw [← Std.LawfulEqCmp.eq_of_compare hkey, h, Nat.zero_sub]
    next => rfl
  simp [settle, h, hsame]

section Nodes

/-- The counts to subtract, node by node, and object by object within a node. -/
abbrev NodeWalk := List (NodeId × List (ObjectId × Nat))

def countsAt (node : NodeId) (objects : List (ObjectId × Nat)) :
    List ((NodeId × ObjectId) × Nat) :=
  objects.map fun (object, n) => ((node, object), n)

def NodeWalk.entries (walk : NodeWalk) : List ((NodeId × ObjectId) × Nat) :=
  walk.flatMap fun (node, objects) => countsAt node objects

def settleNode (state : Nat × Conflicts) (node : NodeId) (objects : List (ObjectId × Nat)) :
    Nat × Conflicts :=
  if state.2.containsNode node then (countsAt node objects).foldl settle state else state

def expireNodes (c : Conflicts) (walk : NodeWalk) : Nat × Conflicts :=
  walk.foldl (fun state (node, objects) => settleNode state node objects) (0, c)

theorem settleNode_eq (state : Nat × Conflicts) (node : NodeId) (objects : List (ObjectId × Nat)) :
    settleNode state node objects = (countsAt node objects).foldl settle state := by
  unfold settleNode
  split
  next => rfl
  next hnone =>
    obtain ⟨cleared, c⟩ := state
    rw [containsNode_iff] at hnone
    symm
    induction objects with
    | nil => rfl
    | cons entry rest ih =>
      have habsent : c.counts.count (node, entry.1) = 0 :=
        Nat.eq_zero_of_not_pos fun hpositive => hnone ⟨entry.1, hpositive⟩
      rw [countsAt, List.map_cons, List.foldl_cons, settle_of_absent habsent]
      exact ih

/-- To go node by node is one of the orders of the entries. -/
theorem expireNodes_eq (c : Conflicts) (walk : NodeWalk) :
    c.expireNodes walk = c.expire walk.entries := by
  simp only [expireNodes, settleNode_eq, expire_eq_foldl, NodeWalk.entries, List.foldl_flatMap]

end Nodes

section Orders

variable {order order' : List ((NodeId × ObjectId) × Nat)}

theorem cleared_entries (hnodup : (order.map (·.1)).Nodup) : (c.expire order).1 =
    order.countP fun entry => 0 < c.counts.count entry.1 ∧ c.counts.count entry.1 ≤ entry.2 := by
  induction order using List.reverseRecOn with
  | nil => rfl
  | append_singleton order entry ih =>
    rw [List.map_append, List.map_singleton, ← List.concat_eq_append, List.nodup_concat] at hnodup
    obtain ⟨habsent, hrest⟩ := hnodup
    have hlive : (c.expire order).2.counts.count entry.1 = c.counts.count entry.1 := by
      have hcount := c.count_expire order entry.1.1 entry.1.2
      rwa [Tally.share_eq_zero habsent, Nat.sub_zero] at hcount
    rw [expire_concat, cleared_settle, hlive, List.countP_append, List.countP_singleton, ← ih hrest]
    simp only [decide_eq_true_eq]

theorem expire_perm (hperm : order.Perm order') (hnodup : (order.map (·.1)).Nodup) :
    c.expire order = c.expire order' := by
  apply Prod.ext
  · rw [cleared_entries hnodup, cleared_entries (((hperm.map (·.1)).nodup_iff).mp hnodup),
      hperm.countP_eq]
  · have hdowns : (c.expire order).2.downs = (c.expire order').2.downs := by
      rw [downs_expire, downs_expire]
    have hcounts : (c.expire order).2.counts = (c.expire order').2.counts := by
      ext ⟨node, object⟩
      have hleft := c.count_expire order node object
      have hright := c.count_expire order' node object
      rw [Tally.share_perm hperm, ← hright] at hleft
      exact hleft
    rw [Conflicts.mk.injEq]
    exact ⟨hcounts, hdowns⟩

end Orders

end Conflicts

open AccessGraph Conflicts

/-- Any two orders of the expired amounts give the same report, the same weights and the same
conflicts. -/
theorem expiry_order_free (history : List Change) (c : Conflicts) (period : Period) :
    (∀ order order', order.Perm period.edges.entries → order'.Perm period.edges.entries →
      ((after history).expire order).1 = ((after history).expire order').1 ∧
        ((after history).expire order).2.Matching ((after history).expire order').2) ∧
    (∀ walk walk' : NodeWalk, walk.entries.Perm period.conflicts.entries →
      walk'.entries.Perm period.conflicts.entries → c.expireNodes walk = c.expireNodes walk') ∧
    ∀ order, order.Perm period.conflicts.entries →
      c.expire order = c.expire period.conflicts.entries := by
  have sound := sound_after history
  have horder (order) (hperm : order.Perm period.conflicts.entries) :
      c.expire order = c.expire period.conflicts.entries :=
    expire_perm hperm (((hperm.map (·.1)).nodup_iff).mpr period.conflicts.nodup_keys)
  refine ⟨fun order order' hperm hperm' => ?_, fun walk walk' hperm hperm' => ?_, horder⟩
  · have hboth := hperm.trans hperm'.symm
    have hdistinct := (distinct_entries period.edges).perm hperm.symm
    exact ⟨sound.report_perm hdistinct hboth,
      (sound.alike_expire hboth).matching (sound.expire order) (sound.expire order')⟩
  · rw [expireNodes_eq, expireNodes_eq, horder _ hperm, horder _ hperm']

theorem expiry_order_free_shared :
    let g := after [.increment "a" 7, .increment "b" 7]
    let c : Conflicts := ⟨((∅ : Tally _).add (2, 9) 1).add (2, 8) 5, ∅⟩
    (g.expire [(⟨0, 0⟩, 1), (⟨1, 0⟩, 1)]).2.hubs.free = [1, 2, 0] ∧
      (g.expire [(⟨1, 0⟩, 1), (⟨0, 0⟩, 1)]).2.hubs.free = [1, 0, 2] ∧
      (g.expire [(⟨0, 0⟩, 1), (⟨1, 0⟩, 1)]).1 = (g.expire [(⟨1, 0⟩, 1), (⟨0, 0⟩, 1)]).1 ∧
      (g.expire [(⟨0, 0⟩, 1), (⟨1, 0⟩, 1)]).2.Matching
        (g.expire [(⟨1, 0⟩, 1), (⟨0, 0⟩, 1)]).2 ∧
      c.expireNodes [(2, [(9, 1), (8, 1)]), (3, [(4, 1)])] =
        c.expireNodes [(3, [(4, 1)]), (2, [(8, 1), (9, 1)])] := by
  intro g c
  obtain ⟨hedges, hnodes, -⟩ := expiry_order_free [.increment "a" 7, .increment "b" 7] c
    (((((∅ : Period).addEdges [⟨0, 0⟩, ⟨1, 0⟩]).addConflict 2 9).addConflict 2 8).addConflict 3 4)
  obtain ⟨hreport, hmatching⟩ := hedges [(⟨0, 0⟩, 1), (⟨1, 0⟩, 1)] [(⟨1, 0⟩, 1), (⟨0, 0⟩, 1)]
    (by decide) (by decide)
  exact ⟨by decide, by decide, hreport, hmatching, hnodes _ _ (by decide) (by decide)⟩

end Cohort
