import Cohort.Proofs.AccessGraph.Alike
import Cohort.Proofs.AccessGraph.Batches
import Mathlib.Data.List.Induction

/-! What subtracting expired amounts reports. Edges and vertices are reported as removed just when
they are gone, and as decremented when they weigh less than before, so the report says no more than
the graphs before and after it. -/

namespace Cohort

attribute [ext] Decayed

namespace AccessGraph

variable {g h : AccessGraph}

section Step

variable (key : EdgeKey) (amount : Nat)

theorem Placed.size_detach (placed : g.Placed) (vertex : VertexKey) (edge : EdgeKey) :
    (g.detach vertex edge).1 + (g.detach vertex edge).2.hubs.size = g.hubs.size := by
  by_cases hlast : ∃ hub, g.hubs.get? vertex = some hub ∧ hub.without edge = none
  · obtain ⟨hub, hget, hnone⟩ := hlast
    have hfiltered := @get?_filtered g vertex edge vertex
    rw [if_pos rfl, hget, Option.map_some] at hfiltered
    have hsize := (placed.hubs.modify vertex _).size_remove hfiltered
    rw [Arena.size_modify] at hsize
    rw [detach_of_last hget hnone, Nat.add_comm]
    exact hsize
  · rw [detach_of_rest fun hub hget hnone => hlast ⟨hub, hget, hnone⟩, Nat.zero_add]
    exact Arena.size_modify ..

theorem Linked.size_decay (linked : g.Linked) (decayed : Decayed) :
    (decayed.note (g.decay key amount).1).removed + (g.decay key amount).2.edgeCount =
        decayed.removed + g.edgeCount ∧
      (decayed.note (g.decay key amount).1).vertices + (g.decay key amount).2.vertexCount =
        decayed.vertices + g.vertexCount := by
  cases hget : g.edges.get? key with
  | none => simp [decay, hget, Decayed.note]
  | some edge =>
    by_cases hless : amount < edge.weight
    · simp only [decay, hget, hless, if_true, Decayed.note, edgeCount, vertexCount,
        Arena.size_modify, and_self]
    · have hedges := linked.edges.size_remove hget
      have hbare : Placed { g with
          edges := g.edges.remove key
          index := g.index.erase (edge.identity, edge.object) } := ⟨linked.hubs, linked.places⟩
      have hfirst := hbare.size_detach edge.identity key
      have hsecond := (@Placed.detach _ edge.identity key hbare).size_detach edge.object key
      simp only [decay, hget, hless, if_false, Decayed.note, edgeCount, vertexCount, edges_detach]
      dsimp only at hfirst
      omega

theorem decremented_decay (g : AccessGraph) (decayed : Decayed) :
    (decayed.note (g.decay key amount).1).decremented =
      decayed.decremented + if amount < g.weightAt key then 1 else 0 := by
  rcases decay_cases (g := g) key amount with ⟨hnone, heq⟩ | ⟨weight, hsome, hless, heq⟩ |
    ⟨edge, endpoints, hget, hle, heq⟩
  · simp [heq, Decayed.note, weightAt, hnone]
  · simp [heq, Decayed.note, weightAt, hsome, hless]
  · simp [heq, Decayed.note, weightAt, weightOf, hget, hle]

end Step

theorem expire_concat (g : AccessGraph) (expired : List (EdgeKey × Nat)) (entry : EdgeKey × Nat) :
    g.expire (expired ++ [entry]) =
      ((g.expire expired).1.note ((g.expire expired).2.decay entry.1 entry.2).1,
        ((g.expire expired).2.decay entry.1 entry.2).2) := by
  simp only [expire, List.foldl_concat]

/-- Whatever is subtracted, the report tells how many edges and vertices are gone. -/
theorem Sound.size_expire (sound : g.Sound) (expired : List (EdgeKey × Nat)) :
    (g.expire expired).1.removed + (g.expire expired).2.edgeCount = g.edgeCount ∧
      (g.expire expired).1.vertices + (g.expire expired).2.vertexCount = g.vertexCount := by
  induction expired using List.reverseRecOn with
  | nil => exact ⟨Nat.zero_add _, Nat.zero_add _⟩
  | append_singleton expired entry ih =>
    have hstep := (sound.expire expired).size_decay entry.1 entry.2 (g.expire expired).1
    rw [expire_concat]
    exact ⟨hstep.1.trans ih.1, hstep.2.trans ih.2⟩

structure Distinct (expired : List (EdgeKey × Nat)) : Prop where
  nodup : (expired.map (·.1)).Nodup
  positive : ∀ entry ∈ expired, 0 < entry.2

theorem distinct_entries (counts : Tally EdgeKey) : Distinct counts.entries where
  nodup := counts.nodup_keys
  positive _ hmem := (Tally.mem_entries.mp hmem).2

section Decremented

variable {expired : List (EdgeKey × Nat)}

theorem decremented_entries (hnodup : (expired.map (·.1)).Nodup) :
    (g.expire expired).1.decremented =
      expired.countP fun entry => entry.2 < g.weightAt entry.1 := by
  induction expired using List.reverseRecOn with
  | nil => rfl
  | append_singleton expired entry ih =>
    rw [List.map_append, List.map_singleton, ← List.concat_eq_append, List.nodup_concat] at hnodup
    obtain ⟨habsent, hrest⟩ := hnodup
    rw [expire_concat, decremented_decay, ih hrest, weightAt_expire, Tally.share_eq_zero habsent,
      Nat.sub_zero, List.countP_append, List.countP_singleton]
    simp only [decide_eq_true_eq]

theorem Sound.use_expire (sound : g.Sound) (expired : List (EdgeKey × Nat)) {name : Identity}
    {object : ObjectId} {key : EdgeKey} (hends : g.ends? key = some (name, object)) :
    (g.expire expired).2.use name object = (g.expire expired).2.weightAt key ∧
      g.use name object = g.weightAt key := by
  have hbefore : g.use name object = g.weightAt key := by
    rw [use, sound.edgeWeight_eq hends, Option.getD_some]
  refine ⟨?_, hbefore⟩
  rw [weightAt_expire, ← hbefore]
  exact sound.edgeWeight_expire expired hends

theorem Sound.mem_decremented (sound : g.Sound) (distinct : Distinct expired) {key : EdgeKey} :
    key ∈ (expired.filter fun entry => entry.2 < g.weightAt entry.1).map (·.1) ↔
      key ∈ g.edges.keys ∧ 0 < (g.expire expired).2.weightAt key ∧
        (g.expire expired).2.weightAt key < g.weightAt key := by
  simp only [List.mem_map, List.mem_filter, decide_eq_true_eq, weightAt_expire]
  constructor
  · rintro ⟨⟨_, n⟩, ⟨hmem, hless⟩, rfl⟩
    obtain ⟨pair, hends⟩ := sound.weightAt_pos.mp (Nat.zero_lt_of_lt hless)
    have hpositive := distinct.positive _ hmem
    rw [Tally.share_of_mem distinct.nodup hmem]
    dsimp only at hless hpositive ⊢
    exact ⟨mem_keys_of_ends? hends, by omega, by omega⟩
  · rintro ⟨-, hkept, hless⟩
    have hlisted : key ∈ expired.map (·.1) := Tally.mem_keys_of_share_pos (by omega)
    obtain ⟨⟨_, n⟩, hmem, rfl⟩ := List.mem_map.mp hlisted
    rw [Tally.share_of_mem distinct.nodup hmem] at hkept
    exact ⟨_, ⟨hmem, Nat.lt_of_sub_pos hkept⟩, rfl⟩

theorem Sound.decremented_expire (sound : g.Sound) (distinct : Distinct expired) :
    (g.expire expired).1.decremented = g.pairs.countP fun pair =>
      0 < (g.expire expired).2.use pair.1 pair.2 ∧
        (g.expire expired).2.use pair.1 pair.2 < g.use pair.1 pair.2 := by
  have hkeys : g.pairs.countP (fun pair => 0 < (g.expire expired).2.use pair.1 pair.2 ∧
        (g.expire expired).2.use pair.1 pair.2 < g.use pair.1 pair.2) =
      g.edges.keys.countP fun key => 0 < (g.expire expired).2.weightAt key ∧
        (g.expire expired).2.weightAt key < g.weightAt key := by
    rw [pairs, List.countP_filterMap]
    refine List.countP_congr fun key hmem => ?_
    obtain ⟨edge, hedge⟩ := Arena.mem_keys.mp hmem
    obtain ⟨⟨name, object⟩, hends⟩ := sound.ends?_isSome hedge
    obtain ⟨hafter, hbefore⟩ := sound.use_expire expired hends
    rw [hends, Option.map_some, Option.getD_some, hafter, hbefore]
  have hperm : ((expired.filter fun entry => entry.2 < g.weightAt entry.1).map (·.1)).Perm
      (g.edges.keys.filter fun key => 0 < (g.expire expired).2.weightAt key ∧
        (g.expire expired).2.weightAt key < g.weightAt key) := by
    rw [List.perm_ext_iff_of_nodup (distinct.nodup.sublist (List.filter_sublist.map _))
      (g.edges.nodup_keys.filter _)]
    intro key
    rw [sound.mem_decremented distinct, List.mem_filter, decide_eq_true_eq]
  rw [decremented_entries distinct.nodup, hkeys, List.countP_eq_length_filter,
    List.countP_eq_length_filter, ← hperm.length_eq, List.length_map]

end Decremented

/-- Where the graphs are alike before and after, so are the reports, whatever keys and amounts they
come from. -/
theorem Alike.report_expire (alike : g.Alike h) (sound : g.Sound) (sound' : h.Sound)
    {expired expired' : List (EdgeKey × Nat)} (distinct : Distinct expired)
    (distinct' : Distinct expired') (after : (g.expire expired).2.Alike (h.expire expired').2) :
    (g.expire expired).1 = (h.expire expired').1 := by
  have hafter := sound.expire expired
  have hafter' := sound'.expire expired'
  obtain ⟨hremoved, hvertices⟩ := sound.size_expire expired
  obtain ⟨hremoved', hvertices'⟩ := sound'.size_expire expired'
  rw [after.edgeCount hafter hafter', alike.edgeCount sound sound'] at hremoved
  rw [after.vertexCount hafter hafter', alike.vertexCount sound sound'] at hvertices
  ext
  · rw [sound.decremented_expire distinct, sound'.decremented_expire distinct',
      (alike.pairs_perm sound sound').countP_eq, alike.use, after.use]
  · omega
  · omega

end AccessGraph

end Cohort
