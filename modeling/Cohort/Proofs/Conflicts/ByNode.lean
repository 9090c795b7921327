import Cohort.Conflicts.ByNode
import Cohort.Proofs.ExpiryOrder
import Mathlib.Data.List.Sort

/-! Conflicts stored by node. No stored node is without counts and no stored count is zero, however
the counts came and went, and so every question has the answer that the plain counts give it. -/

namespace Cohort

theorem eq_of_ascending {α : Type} (key : α → Nat) {left right : List α}
    (hleft : left.Pairwise fun x y => key x < key y)
    (hright : right.Pairwise fun x y => key x < key y) (hmem : ∀ x, x ∈ left ↔ x ∈ right) :
    left = right := by
  have hnodup {l : List α} (h : l.Pairwise fun x y => key x < key y) : l.Nodup :=
    h.imp fun {x y} hlt (heq : x = y) => Nat.lt_irrefl _ (heq ▸ hlt)
  have hperm : left.Perm right :=
    (List.perm_ext_iff_of_nodup (hnodup hleft) (hnodup hright)).mpr hmem
  exact hperm.eq_of_pairwise (fun _ _ _ _ hlt hgt => absurd hlt (Nat.lt_asymm hgt)) hleft hright

namespace Conflicts.ByNode

section Objects

def Positive (counts : Table ObjectId Nat) : Prop :=
  ∀ object : ObjectId, counts[object]? ≠ some 0

variable {counts : Table ObjectId Nat}

theorem getElem?_of_positive (h : Positive counts) {object : ObjectId} {n : Nat} :
    counts[object]? = some n ↔ counts.getD object 0 = n ∧ 0 < n := by
  have hnonzero := h object
  rw [Std.ExtTreeMap.getD_eq_getD_getElem?]
  cases hfound : counts[object]? with
  | none => simp; omega
  | some m =>
    rw [hfound] at hnonzero
    simp at hnonzero ⊢
    omega

theorem Positive.insert (h : Positive counts) (object : ObjectId) {n : Nat} (hn : n ≠ 0) :
    Positive (counts.insert object n) := by
  intro other
  rw [Std.ExtTreeMap.getElem?_insert]
  split
  next => simpa using hn
  next => exact h other

theorem Positive.erase (h : Positive counts) (object : ObjectId) :
    Positive (counts.erase object) := by
  intro other
  rw [Std.ExtTreeMap.getElem?_erase]
  split
  next => simp
  next => exact h other

variable (cleared n : Nat) (object : ObjectId)

theorem settleObject_eq (h : Positive counts) : settleObject (cleared, counts) (object, n) =
    if counts.getD object 0 ≤ n then
      (if 0 < counts.getD object 0 then cleared + 1 else cleared, counts.erase object)
    else (cleared, counts.insert object (counts.getD object 0 - n)) := by
  have hnonzero := h object
  simp only [settleObject, Std.ExtTreeMap.getD_eq_getD_getElem?,
    Std.ExtTreeMap.contains_eq_isSome_getElem?]
  cases hfound : counts[object]? with
  | none => simp
  | some live =>
    have hlive : 0 < live := Nat.pos_of_ne_zero fun hzero => hnonzero (hzero ▸ hfound)
    simp [hlive, Nat.sub_eq_zero_iff_le]

theorem positive_settleObject (h : Positive counts) :
    Positive (settleObject (cleared, counts) (object, n)).2 := by
  rw [settleObject_eq _ _ _ h]
  split
  next => exact h.erase object
  next hmore => exact h.insert object (by omega)

theorem getD_settleObject (h : Positive counts) (other : ObjectId) :
    (settleObject (cleared, counts) (object, n)).2.getD other 0 =
      if object = other then counts.getD object 0 - n else counts.getD other 0 := by
  rw [settleObject_eq _ _ _ h]
  split
  next hall =>
    simp only [Std.ExtTreeMap.getD_erase, Std.compare_eq_iff_eq, Nat.sub_eq_zero_of_le hall]
  next => simp only [Std.ExtTreeMap.getD_insert, Std.compare_eq_iff_eq]

theorem settleObject_fst (h : Positive counts) :
    (settleObject (cleared, counts) (object, n)).1 = cleared +
      if 0 < counts.getD object 0 ∧ counts.getD object 0 ≤ n then 1 else 0 := by
  rw [settleObject_eq _ _ _ h]
  by_cases hall : counts.getD object 0 ≤ n <;> by_cases hlive : 0 < counts.getD object 0 <;>
    simp [hall, hlive]

end Objects

section Kept

/-- Every stored node has counts, and no stored count is zero. -/
def Kept (c : ByNode) : Prop :=
  ∀ (node : NodeId) counts, c.nodes[node]? = some counts → counts ≠ ∅ ∧ Positive counts

variable {c : ByNode} {counts : Table ObjectId Nat}

theorem kept_empty : Kept ∅ := by
  intro node counts hcounts
  change (∅ : Table NodeId (Table ObjectId Nat))[node]? = some counts at hcounts
  simp at hcounts

theorem Kept.insert (kept : c.Kept) (node : NodeId) (hnonempty : counts ≠ ∅)
    (hpositive : Positive counts) : Kept { c with nodes := c.nodes.insert node counts } := by
  intro other found
  rw [Std.ExtTreeMap.getElem?_insert]
  split
  next =>
    rintro ⟨⟩
    exact ⟨hnonempty, hpositive⟩
  next => exact kept other found

theorem Kept.positive_getD (kept : c.Kept) (node : NodeId) : Positive (c.nodes.getD node ∅) := by
  rw [Std.ExtTreeMap.getD_eq_getD_getElem?]
  cases hfound : c.nodes[node]? with
  | none => simp [Positive]
  | some counts => exact (kept node counts hfound).2

theorem exists_pos_of_ne_empty (hpositive : Positive counts) (hnonempty : counts ≠ ∅) :
    ∃ object, 0 < counts.getD object 0 := by
  by_contra hnone
  refine hnonempty (Std.ExtTreeMap.ext_getElem? fun object => ?_)
  rw [Std.ExtTreeMap.getElem?_empty]
  cases hfound : counts[object]? with
  | none => rfl
  | some n =>
    obtain ⟨rfl, hn⟩ := (getElem?_of_positive hpositive).mp hfound
    exact absurd ⟨object, hn⟩ hnone

theorem Kept.containsNode_iff (kept : c.Kept) {node : NodeId} :
    c.containsNode node ↔ ∃ object, 0 < c.count node object := by
  simp only [count_eq, containsNode, Std.ExtTreeMap.contains_eq_isSome_getElem?,
    Std.ExtTreeMap.getD_eq_getD_getElem? (a := node)]
  cases hfound : c.nodes[node]? with
  | none => simp
  | some counts =>
    obtain ⟨hnonempty, hpositive⟩ := kept node counts hfound
    simpa using exists_pos_of_ne_empty hpositive hnonempty

theorem count_insert (c : ByNode) (node other : NodeId) (counts : Table ObjectId Nat)
    (object : ObjectId) : count { c with nodes := c.nodes.insert node counts } other object =
      if node = other then counts.getD object 0 else c.count other object := by
  simp only [count_eq, Std.ExtTreeMap.getD_insert, Std.compare_eq_iff_eq]
  split <;> rfl

theorem count_dropEmpty (c : ByNode) (node other : NodeId) (object : ObjectId) :
    (c.dropEmpty node).count other object = c.count other object := by
  unfold dropEmpty
  split
  next hempty =>
    obtain ⟨counts, hfound, hcounts⟩ := (Option.any_eq_true _ _).mp hempty
    rw [count_eq, count_eq, Std.ExtTreeMap.getD_erase]
    split
    next hsame =>
      obtain rfl := Std.LawfulEqCmp.eq_of_compare hsame
      obtain rfl := Std.ExtTreeMap.isEmpty_iff.mp hcounts
      rw [Std.ExtTreeMap.getD_eq_getD_getElem? (a := node), hfound, Option.getD_some]
    next => rfl
  next => rfl

theorem downs_dropEmpty (c : ByNode) (node : NodeId) : (c.dropEmpty node).downs = c.downs := by
  unfold dropEmpty
  split <;> rfl

theorem Kept.dropEmpty (kept : c.Kept) (node : NodeId) (hpositive : Positive counts) :
    Kept (dropEmpty { c with nodes := c.nodes.insert node counts } node) := by
  unfold ByNode.dropEmpty
  rw [Std.ExtTreeMap.getElem?_insert_self]
  split
  next =>
    intro other found
    rw [Std.ExtTreeMap.getElem?_erase, Std.ExtTreeMap.getElem?_insert]
    split
    next => rintro ⟨⟩
    next => exact kept other found
  next hsome =>
    have hnonempty : counts ≠ ∅ := by
      rintro rfl
      exact hsome rfl
    exact kept.insert node hnonempty hpositive

end Kept

structure Matches (c : ByNode) (d : Conflicts) : Prop where
  kept : c.Kept
  count : ∀ node object, c.count node object = d.count node object
  downs : c.downs = d.downs

theorem matches_empty : Matches ∅ ∅ where
  kept := kept_empty
  count node object := by
    change ((∅ : Table NodeId (Table ObjectId Nat))[node]?.bind _).getD 0 = _
    simp [Conflicts.count]
    rfl
  downs := rfl

section Steps

variable {c : ByNode} {d : Conflicts}

def counted (c : ByNode) (node : NodeId) (object : ObjectId) : ByNode :=
  let counts := c.nodes.getD node ∅
  { c with nodes := c.nodes.insert node (counts.insert object (counts.getD object 0 + 1)) }

theorem record_eq (c : ByNode) (w : Window) (node : NodeId) (object : ObjectId) :
    c.record w node object =
      if object = 0 then .error (.argument .absentConflict)
      else if c.downs.contains node then .ok (false, c, w)
      else .ok (true, c.counted node object, w.recordConflict node object) := by
  simp only [record, ObjectId.isAbsent, beq_iff_eq, counted, Std.ExtTreeMap.getD_eq_getD_getElem?]

theorem eq_zero_of_record_eq_error {w : Window} {node : NodeId} {object : ObjectId} {fault : Fault}
    (h : c.record w node object = .error fault) : object = 0 := by
  rw [record_eq] at h
  split at h
  next hobject => exact hobject
  next => split at h <;> cases h

theorem count_counted (c : ByNode) (node other : NodeId) (object seen : ObjectId) :
    (c.counted node object).count other seen =
      c.count other seen + if (node, object) = (other, seen) then 1 else 0 := by
  simp only [counted, count_insert, Std.ExtTreeMap.getD_insert, Std.compare_eq_iff_eq,
    Prod.mk.injEq]
  split
  next hnode =>
    subst hnode
    rw [count_eq]
    split
    next hobject => simp [hobject]
    next hobject => simp [hobject]
  next hnode => simp [hnode]

theorem Kept.counted (kept : c.Kept) (node : NodeId) (object : ObjectId) :
    (c.counted node object).Kept := by
  refine kept.insert node (fun hempty => ?_)
    ((kept.positive_getD node).insert object (Nat.succ_ne_zero _))
  have hfound := congrArg (·[object]?) hempty
  simp at hfound

theorem Matches.counted (hmatch : c.Matches d) (node : NodeId) (object : ObjectId) :
    (c.counted node object).Matches { d with counts := d.counts.add (node, object) 1 } where
  kept := hmatch.kept.counted node object
  count other seen := by
    rw [count_counted, hmatch.count, Conflicts.count, Conflicts.count, Tally.count_add]
    simp only [Std.compare_eq_iff_eq]
    split
    next hpair => rw [hpair]
    next => rfl
  downs := hmatch.downs

theorem Matches.removeNode (hmatch : c.Matches d) (node : NodeId) :
    (c.removeNode node).Matches (d.removeNode node) where
  kept other found := by
    change (c.nodes.erase node)[other]? = some found → _
    rw [Std.ExtTreeMap.getElem?_erase]
    split
    next => rintro ⟨⟩
    next => exact hmatch.kept other found
  count other object := by
    rw [count_removeNode, ← hmatch.count, count_eq, count_eq]
    simp only [ByNode.removeNode, Std.ExtTreeMap.getD_erase, Std.compare_eq_iff_eq,
      @eq_comm _ node]
    split <;> simp
  downs := congrArg (·.insert node) hmatch.downs

end Steps

section Expire

variable {node : NodeId}

theorem count_settle (state : Nat × Conflicts) (node other : NodeId) (object seen : ObjectId)
    (n : Nat) : (settle state ((node, object), n)).2.count other seen =
      if (node, object) = (other, seen) then state.2.count node object - n
      else state.2.count other seen := by
  simp only [Conflicts.count, counts_settle, Tally.count_subtract, Std.compare_eq_iff_eq]

structure OwnCounts (node : NodeId) (stored : Nat × Table ObjectId Nat) (plain : Nat × Conflicts) :
    Prop where
  cleared : stored.1 = plain.1
  positive : Positive stored.2
  count : ∀ object, stored.2.getD object 0 = plain.2.count node object

theorem OwnCounts.settle {stored : Nat × Table ObjectId Nat} {plain : Nat × Conflicts}
    (own : OwnCounts node stored plain) (object : ObjectId) (n : Nat) :
    OwnCounts node (settleObject stored (object, n))
      (Conflicts.settle plain ((node, object), n)) := by
  obtain ⟨cleared, counts⟩ := stored
  constructor
  · rw [settleObject_fst _ _ _ own.positive, cleared_settle, own.count]
    exact congrArg (· + _) own.cleared
  · exact positive_settleObject _ _ _ own.positive
  · intro other
    rw [getD_settleObject _ _ _ own.positive, count_settle, own.count, own.count]
    simp only [Prod.mk.injEq, true_and]

theorem OwnCounts.settle_all {stored : Nat × Table ObjectId Nat} {plain : Nat × Conflicts}
    (own : OwnCounts node stored plain) (objects : List (ObjectId × Nat)) :
    OwnCounts node (objects.foldl settleObject stored)
      ((countsAt node objects).foldl Conflicts.settle plain) := by
  induction objects generalizing stored plain with
  | nil => exact own
  | cons entry rest ih => exact ih (own.settle entry.1 entry.2)

theorem downs_settle_all (plain : Nat × Conflicts) (node : NodeId)
    (objects : List (ObjectId × Nat)) :
    ((countsAt node objects).foldl settle plain).2.downs = plain.2.downs := by
  induction objects generalizing plain with
  | nil => rfl
  | cons entry rest ih => exact ih _

theorem count_settle_all_of_ne (plain : Nat × Conflicts) (objects : List (ObjectId × Nat))
    {other : NodeId} (hne : node ≠ other) (seen : ObjectId) :
    ((countsAt node objects).foldl settle plain).2.count other seen = plain.2.count other seen := by
  induction objects generalizing plain with
  | nil => rfl
  | cons entry rest ih =>
    refine (ih _).trans ?_
    rw [count_settle, if_neg fun hpair => hne (Prod.mk.inj hpair).1]

variable {c : ByNode} {d : Conflicts}

theorem Matches.containsNode (hmatch : c.Matches d) (node : NodeId) :
    c.containsNode node = d.containsNode node := by
  rw [Bool.eq_iff_iff, hmatch.kept.containsNode_iff, containsNode_iff]
  simp only [hmatch.count]

variable {stored : Nat × ByNode} {plain : Nat × Conflicts}

theorem Matches.expireNode (hmatch : stored.2.Matches plain.2) (hcleared : stored.1 = plain.1)
    (node : NodeId) (objects : List (ObjectId × Nat)) :
    (expireNode stored node objects).1 = (settleNode plain node objects).1 ∧
      (expireNode stored node objects).2.Matches (settleNode plain node objects).2 := by
  obtain ⟨cleared, c⟩ := stored
  obtain ⟨_, d⟩ := plain
  obtain rfl : cleared = _ := hcleared
  have hcontains : c.containsNode node = d.containsNode node := hmatch.containsNode node
  rw [ByNode.containsNode, Std.ExtTreeMap.contains_eq_isSome_getElem?] at hcontains
  cases hfound : c.nodes[node]? with
  | none =>
    rw [hfound, Option.isSome_none] at hcontains
    simp only [ByNode.expireNode, hfound, settleNode, ← hcontains]
    exact ⟨rfl, hmatch⟩
  | some counts =>
    have hown : OwnCounts node (cleared, counts) (cleared, d) := by
      refine ⟨rfl, (hmatch.kept node counts hfound).2, fun object => ?_⟩
      rw [← hmatch.count, count_eq, Std.ExtTreeMap.getD_eq_getD_getElem? (a := node), hfound,
        Option.getD_some]
    have hsettled := hown.settle_all objects
    rw [settleNode_eq]
    simp only [ByNode.expireNode, hfound]
    -- what expires at this node leaves the counts of the other nodes as they were
    refine ⟨hsettled.cleared, hmatch.kept.dropEmpty node hsettled.positive, ?_, ?_⟩
    · intro other object
      rw [count_dropEmpty, count_insert]
      split
      next hsame =>
        subst hsame
        exact hsettled.count object
      next hne => rw [count_settle_all_of_ne _ _ hne, hmatch.count]
    · rw [downs_dropEmpty, downs_settle_all]
      exact hmatch.downs

theorem Matches.expireNodes (hmatch : c.Matches d) (walk : NodeWalk) :
    (c.expire walk).1 = (d.expireNodes walk).1 ∧
      (c.expire walk).2.Matches (d.expireNodes walk).2 := by
  induction walk using List.reverseRecOn with
  | nil => exact ⟨rfl, hmatch⟩
  | append_singleton walk expired ih =>
    simp only [ByNode.expire, Conflicts.expireNodes, List.foldl_concat]
    exact ih.2.expireNode ih.1 expired.1 expired.2

/-- Node by node, in whatever order, as much is cleared as among the plain counts. -/
theorem Matches.expire (hmatch : c.Matches d) {walk : NodeWalk}
    {expired : Tally (NodeId × ObjectId)} (hwalk : walk.entries.Perm expired.entries) :
    (c.expire walk).1 = (d.expire expired.entries).1 ∧
      (c.expire walk).2.Matches (d.expire expired.entries).2 := by
  have hnodup := (hwalk.map (·.1)).nodup_iff.mpr expired.nodup_keys
  rw [← expire_perm hwalk hnodup, ← expireNodes_eq]
  exact hmatch.expireNodes walk

end Expire

section Answers

structure Answers (c : ByNode) (d : Conflicts) : Prop where
  count : ∀ node object, c.count node object = d.count node object
  containsNode : ∀ node, c.containsNode node = d.containsNode node
  nodeCount : c.nodeCount = d.nodeCount
  downCount : c.downCount = d.downCount
  summary : c.summary = d.summary

variable {c : ByNode} {d : Conflicts}

theorem Matches.keys (hmatch : c.Matches d) : c.nodes.keys = d.nodes := by
  have hascending : c.nodes.keys.Pairwise (· < ·) :=
    Std.ExtTreeMap.ordered_keys.imp Nat.compare_eq_lt.mp
  refine eq_of_ascending id hascending d.nodes_ascending fun node => ?_
  rw [Std.ExtTreeMap.mem_keys, ← Std.ExtTreeMap.contains_iff_mem, mem_nodes]
  simp only [← hmatch.count]
  exact hmatch.kept.containsNode_iff

theorem Matches.counts (hmatch : c.Matches d) {node : NodeId} {counts : Table ObjectId Nat}
    (hfound : c.nodes[node]? = some counts) : counts.toList = d.countsOf node := by
  have hascending : counts.toList.Pairwise fun x y => x.1 < y.1 :=
    Std.ExtTreeMap.ordered_keys_toList.imp Nat.compare_eq_lt.mp
  refine eq_of_ascending (·.1) hascending (d.countsOf_ascending node) fun entry => ?_
  have hcount : c.count node entry.1 = counts.getD entry.1 0 := by
    rw [count_eq, Std.ExtTreeMap.getD_eq_getD_getElem? (a := node), hfound, Option.getD_some]
  rw [Std.ExtTreeMap.mem_toList_iff_getElem?_eq_some, mem_countsOf, ← hmatch.count, hcount,
    getElem?_of_positive (hmatch.kept node counts hfound).2]

theorem Matches.answers (hmatch : c.Matches d) : c.Answers d where
  count := hmatch.count
  containsNode := hmatch.containsNode
  nodeCount := by
    rw [ByNode.nodeCount, ← Std.ExtTreeMap.length_keys, hmatch.keys, Conflicts.nodeCount]
  downCount := congrArg Std.ExtTreeSet.size hmatch.downs
  summary := by
    rw [Conflicts.summary, ← hmatch.keys, ← Std.ExtTreeMap.map_fst_toList_eq_keys, List.map_map]
    refine List.map_congr_left fun entry hmem => ?_
    have hfound := Std.ExtTreeMap.mem_toList_iff_getElem?_eq_some.mp hmem
    exact congrArg (entry.1, ·) (hmatch.counts hfound)

end Answers

end Conflicts.ByNode

end Cohort
