import Cohort.Proofs.Cliques

/-! The groups that labels make: every vertex is in the group of its label and in no other, and
groups keep to classes of names as labels do. -/

namespace Cohort

open Cohort.Random (Source)

namespace LabelNode

variable {nodes : List LabelNode}

theorem mem_groups_iff_roster {group : Group} :
    group ∈ groups nodes ↔ (rosters nodes)[group.id]? = some group.members := by
  rw [groups, List.mem_map, ← Std.ExtTreeMap.mem_toList_iff_getElem?_eq_some]
  constructor
  · rintro ⟨entry, hentry, rfl⟩
    exact hentry
  · intro hentry
    exact ⟨_, hentry, rfl⟩

theorem isSome_rosters {label : Label} :
    (rosters nodes)[label]?.isSome ↔ ∃ name, ⟨name, label⟩ ∈ nodes := by
  rw [← Std.ExtTreeMap.contains_eq_isSome_getElem?, contains_rosters, List.any_eq_true]
  constructor
  · rintro ⟨⟨name, _⟩, hnode, hlabel⟩
    obtain rfl := beq_iff_eq.mp hlabel
    exact ⟨name, hnode⟩
  · rintro ⟨name, hnode⟩
    exact ⟨_, hnode, beq_self_eq_true _⟩

/-- The groups of labelled names: for each label that some name is under, all names under it. -/
theorem mem_groups {group : Group} : group ∈ groups nodes ↔
    (∃ name, ⟨name, group.id⟩ ∈ nodes) ∧
      ∀ name, name ∈ group.members ↔ ⟨name, group.id⟩ ∈ nodes := by
  rw [mem_groups_iff_roster, ← isSome_rosters]
  simp only [← mem_rosters]
  constructor
  · intro hroster
    simp [hroster]
  · rintro ⟨hsome, hmembers⟩
    obtain ⟨members, hroster⟩ := Option.isSome_iff_exists.mp hsome
    simp only [hroster, Option.getD_some] at hmembers
    rw [hroster, Std.ExtTreeSet.ext_mem hmembers]

theorem exists_group {node : LabelNode} (h : node ∈ nodes) :
    ∃ group ∈ groups nodes, node.identity ∈ group.members := by
  have hmembers (name : Identity) :
      name ∈ (rosters nodes)[node.label]?.getD ∅ ↔ ⟨name, node.label⟩ ∈ nodes :=
    mem_rosters nodes node.label name
  have hgroup : (⟨node.label, (rosters nodes)[node.label]?.getD ∅⟩ : Group) ∈ groups nodes :=
    mem_groups.mpr ⟨⟨node.identity, h⟩, hmembers⟩
  exact ⟨_, hgroup, (hmembers node.identity).mpr h⟩

theorem groups_ascending (nodes : List LabelNode) :
    (groups nodes).Pairwise fun group other => group.id < other.id := by
  rw [groups, List.pairwise_map]
  exact Std.ExtTreeMap.ordered_keys_toList.imp Nat.compare_eq_lt.mp

theorem nodup_ids (nodes : List LabelNode) : ((groups nodes).map (·.id)).Nodup := by
  rw [List.Nodup, List.pairwise_map]
  exact (groups_ascending nodes).imp Nat.ne_of_lt

theorem mem_relabel {g : SharingGraph} {labels : Labels} {node : LabelNode} :
    node ∈ relabel (initial g) labels ↔ ∃ position : Nat,
      g.vertices[position]? = some node.identity ∧ labels[position]? = some node.label := by
  obtain ⟨name, label⟩ := node
  simp only [List.mem_iff_getElem?, relabel, initial, List.getElem?_zipWith, List.getElem?_map,
    List.getElem?_zipIdx, Array.getElem?_toList]
  refine exists_congr fun position => ?_
  cases g.vertices[position]? with
  | none => simp
  | some name =>
    cases labels[position]? with
    | none => simp
    | some label => simp

theorem getElem?_initial {g : SharingGraph} {position : Nat} {label : Label}
    (h : (labels (initial g))[position]? = some label) : label = position := by
  simp only [labels, initial, List.map_map, List.getElem?_toArray, List.getElem?_map,
    List.getElem?_zipIdx, Array.getElem?_toList, Option.map_map] at h
  obtain ⟨name, -, hlabel⟩ := Option.map_eq_some_iff.mp h
  simpa [eq_comm] using hlabel

end LabelNode

namespace SharingGraph

variable {κ : Type}

def classAt (g : SharingGraph) (classOf : Identity → κ) (position : Nat) : Option κ :=
  g.vertices[position]?.map classOf

end SharingGraph

namespace Method

variable {g : SharingGraph} {m : Method} {unseeded : Source} {clustering : Clustering}

def labels (m : Method) (unseeded : Source) (g : SharingGraph) : Labels :=
  (m.run unseeded g (LabelNode.labels (LabelNode.initial g))).labels

theorem size_labels_run (m : Method) (unseeded : Source) (g : SharingGraph) :
    (m.labels unseeded g).size = g.vertexCount :=
  (Run.size_upTo _ _).trans (size_initial g)

theorem settled_run {labels : Labels}
    (h : (m.run unseeded g labels).outcome.converged = true) (position : Nat) :
    g.Settled (m.run unseeded g labels).labels position := by
  rcases Nat.lt_or_ge position labels.size with hinside | houtside
  · exact Run.settled_upTo rfl (.refl _) m.cap h hinside
  · exact SharingGraph.settled_of_outside
      (Nat.le_trans (Nat.le_of_eq (Run.size_upTo m.cap _)) houtside)

theorem cluster_eq_ok (h : m.cluster unseeded g = .ok clustering) :
    clustering.outcome =
        (m.run unseeded g (LabelNode.labels (LabelNode.initial g))).outcome ∧
      clustering.nodes = LabelNode.relabel (LabelNode.initial g) (m.labels unseeded g) ∧
      clustering.groups = LabelNode.groups clustering.nodes := by
  unfold cluster at h
  cases hstatistics : m.statistics with
  | false =>
    simp only [hstatistics] at h
    cases h
    exact ⟨rfl, rfl, rfl⟩
  | true =>
    simp only [hstatistics, if_true] at h
    cases hscore : g.modularity (LabelNode.groups (LabelNode.relabel (LabelNode.initial g)
        (m.run unseeded g (LabelNode.labels (LabelNode.initial g))).labels)) with
    | error cause => simp [hscore, bind, Except.bind] at h
    | ok score =>
      simp only [hscore, bind, Except.bind] at h
      cases h
      exact ⟨rfl, rfl, rfl⟩

theorem settled_labels (h : m.cluster unseeded g = .ok clustering)
    (hconverged : clustering.outcome.converged = true) (position : Nat) :
    g.Settled (m.labels unseeded g) position := by
  rw [(cluster_eq_ok h).1] at hconverged
  exact settled_run hconverged position

theorem groups_of_cluster (h : m.cluster unseeded g = .ok clustering) :
    clustering.groups =
      LabelNode.groups (LabelNode.relabel (LabelNode.initial g) (m.labels unseeded g)) := by
  obtain ⟨-, hnodes, hgroups⟩ := cluster_eq_ok h
  rw [hgroups, hnodes]

theorem mem_members (h : m.cluster unseeded g = .ok clustering) {group : Group}
    (hgroup : group ∈ clustering.groups) {name : Identity} :
    name ∈ group.members ↔ ∃ position : Nat, g.vertices[position]? = some name ∧
      (m.labels unseeded g)[position]? = some group.id := by
  rw [groups_of_cluster h] at hgroup
  rw [(LabelNode.mem_groups.mp hgroup).2, LabelNode.mem_relabel]

theorem mem_members_iff (built : g.Built) (h : m.cluster unseeded g = .ok clustering)
    {group : Group} (hgroup : group ∈ clustering.groups) {position : Nat} {name : Identity}
    (hname : g.vertices[position]? = some name) :
    name ∈ group.members ↔ (m.labels unseeded g)[position]? = some group.id := by
  rw [mem_members h hgroup]
  refine ⟨?_, fun hlabel => ⟨position, hname, hlabel⟩⟩
  rintro ⟨place, hplace, hlabel⟩
  rwa [built.position_unique hplace hname] at hlabel

theorem exists_member (h : m.cluster unseeded g = .ok clustering) {group : Group}
    (hgroup : group ∈ clustering.groups) : ∃ name, name ∈ group.members := by
  rw [groups_of_cluster h] at hgroup
  obtain ⟨⟨name, hname⟩, hmembers⟩ := LabelNode.mem_groups.mp hgroup
  exact ⟨name, (hmembers name).mpr hname⟩

theorem exists_group (h : m.cluster unseeded g = .ok clustering) {name : Identity}
    (hname : name ∈ g.vertices) : ∃ group ∈ clustering.groups, name ∈ group.members := by
  obtain ⟨position, hposition⟩ := Array.mem_iff_getElem?.mp hname
  obtain ⟨hinside, -⟩ := Array.getElem?_eq_some_iff.mp hposition
  have hlabelled : position < (m.labels unseeded g).size :=
    Nat.lt_of_lt_of_eq hinside (m.size_labels_run unseeded g).symm
  have hnode : ⟨name, (m.labels unseeded g)[position]⟩ ∈
      LabelNode.relabel (LabelNode.initial g) (m.labels unseeded g) :=
    LabelNode.mem_relabel.mpr ⟨position, hposition, Array.getElem?_eq_getElem hlabelled⟩
  rw [groups_of_cluster h]
  exact LabelNode.exists_group hnode

theorem nodup_ids (h : m.cluster unseeded g = .ok clustering) :
    (clustering.groups.map (·.id)).Nodup := by
  rw [groups_of_cluster h]
  exact LabelNode.nodup_ids _

theorem group_unique (built : g.Built) (h : m.cluster unseeded g = .ok clustering)
    {first second : Group} (hfirst : first ∈ clustering.groups)
    (hsecond : second ∈ clustering.groups) {name : Identity} (hl : name ∈ first.members)
    (hr : name ∈ second.members) : first = second := by
  obtain ⟨position, hname, hlabel⟩ := (mem_members h hfirst).mp hl
  have hid := (mem_members_iff built h hsecond hname).mp hr
  exact List.inj_on_of_nodup_map (nodup_ids h) hfirst hsecond
    (Option.some.inj (hlabel.symm.trans hid))

theorem nodup_members (h : m.cluster unseeded g = .ok clustering) (built : g.Built) :
    (clustering.groups.map (·.members)).Nodup := by
  refine List.Nodup.map_on ?_ (List.Nodup.of_map _ (nodup_ids h))
  intro first hfirst second hsecond hsame
  obtain ⟨name, hname⟩ := exists_member h hfirst
  exact group_unique built h hfirst hsecond hname (hsame ▸ hname)

section Classes

variable {κ : Type} {classOf : Identity → κ}

theorem class_unique (h : m.cluster unseeded g = .ok clustering)
    (hdivided : ∀ link ∈ g.links, g.classAt classOf link.left = g.classAt classOf link.right)
    {group : Group} (hgroup : group ∈ clustering.groups) {first second : Identity}
    (hfirst : first ∈ group.members) (hsecond : second ∈ group.members) :
    classOf first = classOf second := by
  obtain ⟨i, hi, hilabel⟩ := (mem_members h hgroup).mp hfirst
  obtain ⟨j, hj, hjlabel⟩ := (mem_members h hgroup).mp hsecond
  have hinitial : SharingGraph.Keeps (g.classAt classOf)
      (Run.start (LabelNode.labels (LabelNode.initial g)) (m.source unseeded)).labels := by
    intro position label hlabel
    rw [LabelNode.getElem?_initial hlabel]
  have hkeeps := SharingGraph.keeps_upTo hdivided hinitial m.cap
  have hclass := (hkeeps i _ hilabel).symm.trans (hkeeps j _ hjlabel)
  rw [SharingGraph.classAt, SharingGraph.classAt, hi, hj] at hclass
  exact Option.some.inj hclass

variable [DecidableEq κ] {weight : Weight}

/-- Where names of a class are joined by the same weight, passes that come to an end leave the class
in one group. -/
theorem mem_of_class (h : m.cluster unseeded g = .ok clustering)
    (cliques : g.Cliques (g.classAt classOf) weight) (hpositive : 0 < weight)
    (hconverged : clustering.outcome.converged = true) {group : Group}
    (hgroup : group ∈ clustering.groups) {first second : Identity} (hfirst : first ∈ group.members)
    (hsecond : second ∈ g.vertices) (hclass : classOf first = classOf second) :
    second ∈ group.members := by
  obtain ⟨i, hi, hilabel⟩ := (mem_members h hgroup).mp hfirst
  obtain ⟨j, hj⟩ := Array.mem_iff_getElem?.mp hsecond
  obtain ⟨hiinside, -⟩ := Array.getElem?_eq_some_iff.mp hi
  obtain ⟨hjinside, -⟩ := Array.getElem?_eq_some_iff.mp hj
  have hjlabelled : j < (m.labels unseeded g).size :=
    Nat.lt_of_lt_of_eq hjinside (m.size_labels_run unseeded g).symm
  have hjlabel := Array.getElem?_eq_getElem hjlabelled
  have hsame : g.classAt classOf i = g.classAt classOf j := by
    rw [SharingGraph.classAt, SharingGraph.classAt, hi, hj, Option.map_some, Option.map_some,
      hclass]
  have hlabels := cliques.label_unique hpositive hiinside hjinside hsame hilabel hjlabel
    (settled_labels h hconverged i) (settled_labels h hconverged j)
  rw [mem_members h hgroup]
  exact ⟨j, hj, hlabels ▸ hjlabel⟩

end Classes

end Method

end Cohort
