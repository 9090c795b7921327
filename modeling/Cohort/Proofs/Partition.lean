import Cohort.Proofs.Components
import Cohort.Proofs.Scaling

/-! The groups of a run divide the vertices up by their last labels. Whether the run came to an end
or was cut short, every vertex is in the group that is called as its label says, and in no other. -/

namespace Cohort

open Cohort.Random (Source)

/-- Groups with something in them, in the order of their ids, which are positions of vertices. They
list every vertex once and nothing else, and the id of a group is the label of its members. -/
structure Clustering.Partitions (clustering : Clustering) (g : SharingGraph) : Prop where
  nonempty : ∀ group ∈ clustering.groups, group.isEmpty = false
  ascending : clustering.groups.Pairwise fun group other => group.id < other.id
  inside : ∀ group ∈ clustering.groups, group.id < g.vertexCount
  listed : (clustering.groups.flatMap Group.names).Perm g.vertices.toList
  once : ∀ name ∈ g.vertices, ∃! group, group ∈ clustering.groups ∧ name ∈ group.members
  nodes : clustering.nodes.map (·.identity) = g.vertices.toList
  labelled : ∀ group ∈ clustering.groups, ∀ node ∈ clustering.nodes,
    node.identity ∈ group.members ↔ node.label = group.id
  together : ∀ first ∈ clustering.nodes, ∀ second ∈ clustering.nodes,
    (∃ group ∈ clustering.groups,
      first.identity ∈ group.members ∧ second.identity ∈ group.members) ↔
        first.label = second.label

namespace Method

variable {g : SharingGraph} {m : Method} {unseeded : Source} {clustering : Clustering}

theorem identities_cluster (h : m.cluster unseeded g = .ok clustering) :
    clustering.nodes.map (·.identity) = g.vertices.toList := by
  obtain ⟨-, hnodes, -⟩ := cluster_eq_ok h
  have hsize : (m.labels unseeded g).size = (LabelNode.initial g).length := by
    rw [size_labels_run, ← size_initial, size_labels]
  rw [hnodes, LabelNode.identities_relabel hsize, LabelNode.initial, List.map_map]
  exact List.zipIdx_map_fst 0 _

theorem mem_members_iff_label (built : g.Built) (h : m.cluster unseeded g = .ok clustering)
    {group : Group} (hgroup : group ∈ clustering.groups) {node : LabelNode}
    (hnode : node ∈ clustering.nodes) :
    node.identity ∈ group.members ↔ node.label = group.id := by
  rw [(cluster_eq_ok h).2.1] at hnode
  obtain ⟨position, hname, hlabel⟩ := LabelNode.mem_relabel.mp hnode
  rw [mem_members_iff built h hgroup hname, hlabel, Option.some_inj]

theorem isEmpty_eq_false (h : m.cluster unseeded g = .ok clustering) {group : Group}
    (hgroup : group ∈ clustering.groups) : group.isEmpty = false := by
  obtain ⟨name, hmem⟩ := exists_member h hgroup
  exact Std.ExtTreeSet.isEmpty_eq_false_iff.mpr (Std.ExtTreeSet.ne_empty_of_mem hmem)

theorem id_lt (built : g.Built) (h : m.cluster unseeded g = .ok clustering) {group : Group}
    (hgroup : group ∈ clustering.groups) : group.id < g.vertexCount := by
  obtain ⟨name, hmem⟩ := exists_member h hgroup
  obtain ⟨position, hname, -⟩ := (mem_members h hgroup).mp hmem
  exact (connected_of_mem built h hgroup hname hmem).1

theorem nodup_flatMap_names (built : g.Built) (h : m.cluster unseeded g = .ok clustering) :
    (clustering.groups.flatMap Group.names).Nodup := by
  rw [List.nodup_flatMap]
  refine ⟨fun group _ => group.nodup_names, ?_⟩
  have hids : clustering.groups.Pairwise fun group other => group.id ≠ other.id :=
    List.pairwise_map.mp (nodup_ids h)
  refine hids.imp_of_mem fun {first second} hfirst hsecond hne => ?_
  intro name hl hr
  rw [Group.mem_names] at hl hr
  exact hne (congrArg Group.id (group_unique built h hfirst hsecond hl hr))

theorem flatMap_names_perm (built : g.Built) (h : m.cluster unseeded g = .ok clustering) :
    (clustering.groups.flatMap Group.names).Perm g.vertices.toList := by
  rw [List.perm_ext_iff_of_nodup (nodup_flatMap_names built h) built.nodup_vertices]
  intro name
  rw [List.mem_flatMap, Array.mem_toList_iff]
  constructor
  · rintro ⟨group, hgroup, hmem⟩
    obtain ⟨position, hname, -⟩ := (mem_members h hgroup).mp (Group.mem_names.mp hmem)
    exact Array.mem_of_getElem? hname
  · intro hname
    obtain ⟨group, hgroup, hmem⟩ := exists_group h hname
    exact ⟨group, hgroup, Group.mem_names.mpr hmem⟩

theorem together_iff (built : g.Built) (h : m.cluster unseeded g = .ok clustering)
    {first second : LabelNode} (hfirst : first ∈ clustering.nodes)
    (hsecond : second ∈ clustering.nodes) :
    (∃ group ∈ clustering.groups,
      first.identity ∈ group.members ∧ second.identity ∈ group.members) ↔
        first.label = second.label := by
  constructor
  · rintro ⟨group, hgroup, hl, hr⟩
    rw [mem_members_iff_label built h hgroup hfirst] at hl
    rw [mem_members_iff_label built h hgroup hsecond] at hr
    exact hl.trans hr.symm
  · intro hlabel
    have hvertex : first.identity ∈ g.vertices := by
      rw [← Array.mem_toList_iff, ← identities_cluster h]
      exact List.mem_map_of_mem hfirst
    obtain ⟨group, hgroup, hmem⟩ := exists_group h hvertex
    refine ⟨group, hgroup, hmem, ?_⟩
    rw [mem_members_iff_label built h hgroup hfirst] at hmem
    rw [mem_members_iff_label built h hgroup hsecond, ← hlabel, hmem]

theorem partitions (built : g.Built) (h : m.cluster unseeded g = .ok clustering) :
    clustering.Partitions g where
  nonempty _ hgroup := isEmpty_eq_false h hgroup
  ascending := by
    rw [groups_of_cluster h]
    exact LabelNode.groups_ascending _
  inside _ hgroup := id_lt built h hgroup
  listed := flatMap_names_perm built h
  once name hname := by
    obtain ⟨group, hgroup, hmem⟩ := exists_group h hname
    refine ⟨group, ⟨hgroup, hmem⟩, ?_⟩
    rintro other ⟨hother, hmem'⟩
    exact group_unique built h hother hgroup hmem' hmem
  nodes := identities_cluster h
  labelled _ hgroup _ hnode := mem_members_iff_label built h hgroup hnode
  together _ hfirst _ hsecond := together_iff built h hfirst hsecond

end Method

/-- The groups that are found are a partition of the vertices by their last labels. They are found
whenever no score is asked for or twice the weight of the graph fits in a word. -/
theorem groups_partition {g : SharingGraph} (built : g.Built) (m : Method) (unseeded : Source) :
    (∀ clustering, m.cluster unseeded g = .ok clustering → clustering.Partitions g) ∧
    ((m.statistics = true → 2 * g.totalWeight < wordBound) →
      ∃ clustering, m.cluster unseeded g = .ok clustering) := by
  refine ⟨fun clustering => Method.partitions built, fun hfits => ?_⟩
  rw [Method.exists_cluster]
  exact fun hstatistics => built.simple.exists_modularity (hfits hstatistics) _

theorem groups_partition_cut_short :
    let g : SharingGraph := { vertices := #["a", "b", "c"], links := [⟨0, 1, 2⟩, ⟨1, 2, 1⟩] }
    let m : Method := ⟨1, some 7, true⟩
    g.Built ∧ ∀ unseeded, ∃ clustering, m.cluster unseeded g = .ok clustering ∧
      (clustering.groups.flatMap Group.names).Perm ["a", "b", "c"] ∧
        ∃! group, group ∈ clustering.groups ∧ "c" ∈ group.members := by
  intro g m
  have hbuilt : g.Built := ⟨_, .link (.link .empty "a" "b" 2) "b" "c" 1, rfl⟩
  refine ⟨hbuilt, fun unseeded => ?_⟩
  obtain ⟨hpartitions, hfound⟩ := groups_partition hbuilt m unseeded
  obtain ⟨clustering, hcluster⟩ := hfound fun _ => by decide
  have partitions := hpartitions clustering hcluster
  have hlast : g.vertices[2]? = some "c" := rfl
  exact ⟨clustering, hcluster, partitions.listed,
    partitions.once "c" (Array.mem_of_getElem? hlast)⟩

end Cohort
