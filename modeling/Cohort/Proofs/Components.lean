import Cohort.Proofs.AccessGraph.Histories
import Cohort.Proofs.Groups
import Cohort.Proofs.Projection

/-! Groups stay inside the components of the graph. The label of a vertex comes from a vertex
connected to it, so what a group is called and whom it holds lie in one component; in a projected
graph two members of a group are joined by a chain of objects that are used in common. -/

namespace Cohort

open Cohort.Random (Source)

namespace LabelNode

theorem getElem?_relabel {nodes : List LabelNode} {labels : Labels} {position : Nat}
    {node : LabelNode} (h : (relabel nodes labels)[position]? = some node) :
    labels[position]? = some node.label := by
  rw [relabel, List.getElem?_zipWith_eq_some] at h
  obtain ⟨_, label, -, hlabel, rfl⟩ := h
  rwa [Array.getElem?_toList] at hlabel

theorem identities_relabel {nodes : List LabelNode} {labels : Labels}
    (h : labels.size = nodes.length) :
    (relabel nodes labels).map (·.identity) = nodes.map (·.identity) := by
  have hlength : nodes.length ≤ labels.toList.length := Nat.le_of_eq h.symm
  rw [relabel, List.map_zipWith]
  conv_rhs => rw [← List.map_fst_zip hlength, List.map_map, List.zip, List.map_zipWith]
  rfl

theorem getElem?_labels {nodes : List LabelNode} {position : Nat} {label : Label}
    (h : (labels nodes)[position]? = some label) :
    ∃ node, nodes[position]? = some node ∧ node.label = label := by
  simpa [labels] using h

end LabelNode

namespace Method

variable {g : SharingGraph} {m : Method} {unseeded : Source}

theorem identities_of_checkNodes {nodes : List LabelNode} (h : checkNodes g nodes = .ok ()) :
    nodes.map (·.identity) = g.vertices.toList := by
  have hlength := length_of_checkNodes h
  have hplaced : misplaced g nodes = none := by
    cases hmisplaced : misplaced g nodes with
    | none => rfl
    | some found => simp [checkNodes, hlength, hmisplaced] at h
  apply List.ext_getElem ((List.length_map _).trans hlength)
  intro position hnode hvertex
  rw [List.length_map] at hnode
  rw [Array.length_toList] at hvertex
  have hsame := List.find?_eq_none.mp hplaced (nodes[position], position)
    (List.mem_zipIdx_iff_getElem?.mpr (List.getElem?_eq_getElem hnode))
  simp only [SharingGraph.identity?, Array.getElem?_eq_getElem hvertex, bne_iff_ne, ne_eq,
    Option.some.injEq, not_not] at hsame
  rw [List.getElem_map]
  exact hsame.symm

theorem propagate_spread (m : Method) (unseeded : Source) {nodes : List LabelNode}
    (h : checkNodes g nodes = .ok ()) :
    ∃ outcome last, m.propagate unseeded g nodes = .ok (outcome, last) ∧
      last.map (·.identity) = g.vertices.toList ∧
      ∀ position node, last[position]? = some node → ∃ origin first,
        nodes[origin]? = some first ∧ g.Connected position origin ∧ node.label = first.label := by
  refine ⟨_, _, propagate_eq_ok h, ?_, ?_⟩
  · rw [LabelNode.identities_relabel, identities_of_checkNodes h]
    exact (Run.size_upTo _ _).trans (size_labels nodes)
  · intro position node hnode
    obtain ⟨origin, hconnected, horigin⟩ :=
      m.spread_run unseeded g _ position _ (LabelNode.getElem?_relabel hnode)
    obtain ⟨first, hfirst, hlabel⟩ := LabelNode.getElem?_labels horigin
    exact ⟨origin, first, hfirst, hconnected, hlabel.symm⟩

theorem connected_of_mem {clustering : Clustering} (built : g.Built)
    (h : m.cluster unseeded g = .ok clustering) {group : Group}
    (hgroup : group ∈ clustering.groups) {position : Nat} {name : Identity}
    (hname : g.vertices[position]? = some name) (hmem : name ∈ group.members) :
    group.id < g.vertexCount ∧ g.Connected group.id position := by
  have hlabel := (mem_members_iff built h hgroup hname).mp hmem
  obtain ⟨origin, hconnected, horigin⟩ := m.spread_run unseeded g _ position _ hlabel
  have hid := LabelNode.getElem?_initial horigin
  obtain ⟨hinside, -⟩ := Array.getElem?_eq_some_iff.mp horigin
  rw [size_initial] at hinside
  rw [hid]
  exact ⟨hinside, hconnected.symm⟩

end Method

namespace AccessGraph

variable {g : AccessGraph} {shared : SharingGraph}

/-- Whether a chain of identities leads from one to another, each of which shares an object with
the next. -/
def Chained (g : AccessGraph) : Identity → Identity → Prop :=
  Relation.ReflTransGen g.Shares

theorem Shares.symm {first second : Identity} (h : g.Shares first second) :
    g.Shares second first := by
  obtain ⟨object, hfirst, hsecond⟩ := h
  exact ⟨object, hsecond, hfirst⟩

theorem Sound.shares_of_joined (sound : g.Sound) (h : g.project = .ok shared) {i j : Nat}
    (hjoined : shared.Joined i j) : ∃ first second, shared.vertices[i]? = some first ∧
      shared.vertices[j]? = some second ∧ g.Shares first second := by
  obtain ⟨-, -, hlinks⟩ := sound.project_eq_ok h
  obtain ⟨link, hmem, hends⟩ := hjoined
  obtain ⟨first, second, hfirst, hsecond, -, hweight, hpositive⟩ := (hlinks link).mp hmem
  have hshares := sound.shares_iff.mpr (hweight ▸ hpositive)
  obtain ⟨rfl, rfl⟩ | ⟨rfl, rfl⟩ := hends
  · exact ⟨first, second, hfirst, hsecond, hshares⟩
  · exact ⟨second, first, hsecond, hfirst, hshares.symm⟩

theorem Sound.chained_of_connected (sound : g.Sound) (h : g.project = .ok shared) {i j : Nat}
    (hconnected : shared.Connected i j) {first second : Identity}
    (hfirst : shared.vertices[i]? = some first) (hsecond : shared.vertices[j]? = some second) :
    g.Chained first second := by
  induction hconnected generalizing second with
  | refl =>
    cases hfirst.symm.trans hsecond
    exact .refl
  | tail _ hjoined ih =>
    obtain ⟨middle, last, hmiddle, hlast, hshares⟩ := sound.shares_of_joined h hjoined
    cases hsecond.symm.trans hlast
    exact (ih hmiddle).tail hshares

variable {m : Method} {unseeded : Source} {clustering : Clustering}

/-- Members of a group are joined by a chain of shared objects. -/
theorem Sound.chained_of_mem (sound : g.Sound) (h : g.project = .ok shared)
    (hcluster : m.cluster unseeded shared = .ok clustering) {group : Group}
    (hgroup : group ∈ clustering.groups) {first second : Identity}
    (hfirst : first ∈ group.members) (hsecond : second ∈ group.members) :
    g.Chained first second := by
  obtain ⟨built, -, -⟩ := sound.project_eq_ok h
  obtain ⟨i, hi, -⟩ := (Method.mem_members hcluster hgroup).mp hfirst
  obtain ⟨j, hj, -⟩ := (Method.mem_members hcluster hgroup).mp hsecond
  have hleft := (Method.connected_of_mem built hcluster hgroup hi hfirst).2
  have hright := (Method.connected_of_mem built hcluster hgroup hj hsecond).2
  exact sound.chained_of_connected h (hleft.symm.trans hright) hi hj

theorem eq_of_chained {first second : Identity} (h : g.Chained first second)
    (halone : ∀ other, g.Shares first other → other = first) : second = first := by
  induction h with
  | refl => rfl
  | tail _ hshares ih =>
    subst ih
    exact halone _ hshares

theorem Sound.alone (sound : g.Sound) (h : g.project = .ok shared)
    (hcluster : m.cluster unseeded shared = .ok clustering) {name : Identity}
    (hname : g.contains (.identity name))
    (halone : ∀ other, g.Shares name other → other = name) :
    ∃ group ∈ clustering.groups, ∀ other, other ∈ group.members ↔ other = name := by
  obtain ⟨-, hvertices, -⟩ := sound.project_eq_ok h
  obtain ⟨group, hgroup, hmem⟩ := Method.exists_group hcluster ((hvertices name).mpr hname)
  refine ⟨group, hgroup, fun other => ⟨fun hother => ?_, fun heq => heq ▸ hmem⟩⟩
  exact eq_of_chained (sound.chained_of_mem h hcluster hgroup hmem hother) halone

end AccessGraph

open AccessGraph (after)

/-- Every label stays in its component, and so does every group: members of a group are joined by a
chain of shared objects. -/
theorem groups_connected :
    (∀ (g : SharingGraph) (m : Method) unseeded nodes, Method.checkNodes g nodes = .ok () →
      ∃ outcome last, m.propagate unseeded g nodes = .ok (outcome, last) ∧
        last.map (·.identity) = g.vertices.toList ∧
        ∀ position node, last[position]? = some node → ∃ origin first,
          nodes[origin]? = some first ∧ g.Connected position origin ∧
            node.label = first.label) ∧
    (∀ (g : SharingGraph), g.Built → ∀ (m : Method) unseeded,
      (∃ clustering, m.cluster unseeded g = .ok clustering ∧
        ∀ group ∈ clustering.groups, group.id < g.vertexCount ∧
          ∀ position name, g.vertices[position]? = some name → name ∈ group.members →
            g.Connected group.id position) ∨
      (m.statistics = true ∧ ∃ groups cause, g.modularity groups = .error cause ∧
        m.cluster unseeded g = .error cause)) ∧
    ∀ (history : List Change) shared, (after history).project = .ok shared →
      ∀ (m : Method) unseeded clustering, m.cluster unseeded shared = .ok clustering →
        (∀ group ∈ clustering.groups, ∀ first ∈ group.members, ∀ second ∈ group.members,
          (after history).Chained first second) ∧
        ∀ name, (after history).contains (.identity name) →
          (∀ other, (after history).Shares name other → other = name) →
            ∃ group ∈ clustering.groups, ∀ other, other ∈ group.members ↔ other = name := by
  refine ⟨?_, ?_, ?_⟩
  · intro g m unseeded nodes hnodes
    exact m.propagate_spread unseeded hnodes
  · intro g built m unseeded
    rcases m.cluster_cases unseeded g with ⟨clustering, hcluster, -⟩ | hfailed
    · refine .inl ⟨clustering, hcluster, fun group hgroup => ⟨?_, ?_⟩⟩
      · obtain ⟨name, hmem⟩ := Method.exists_member hcluster hgroup
        obtain ⟨position, hname, -⟩ := (Method.mem_members hcluster hgroup).mp hmem
        exact (Method.connected_of_mem built hcluster hgroup hname hmem).1
      · intro position name hname hmem
        exact (Method.connected_of_mem built hcluster hgroup hname hmem).2
    · exact .inr hfailed
  · intro history shared hproject m unseeded clustering hcluster
    have sound := AccessGraph.sound_after history
    refine ⟨fun group hgroup first hfirst second hsecond => ?_, fun name hname halone => ?_⟩
    · exact sound.chained_of_mem hproject hcluster hgroup hfirst hsecond
    · exact sound.alone hproject hcluster hname halone

theorem groups_connected_apart :
    let g : SharingGraph := { vertices := #["a", "b", "c"], links := [⟨0, 1, 2⟩] }
    g.Built ∧ ∀ (m : Method) unseeded, ∃ outcome last,
      m.propagate unseeded g [⟨"a", 4⟩, ⟨"b", 5⟩, ⟨"c", 7⟩] = .ok (outcome, last) ∧
        ∀ node, last[2]? = some node → node.label = 7 := by
  intro g
  have hbuilt : g.Built := ⟨_, .vertex (.link .empty "a" "b" 2) "c", rfl⟩
  have halone : ∀ origin, g.Connected 2 origin → origin = 2 := by
    intro origin hconnected
    have hclass := @SharingGraph.Connected.class_eq g Bool (fun position => decide (position = 2))
      (by decide) 2 origin hconnected
    simpa [eq_comm] using hclass
  refine ⟨hbuilt, fun m unseeded => ?_⟩
  obtain ⟨outcome, last, hpropagate, -, hlabels⟩ :=
    groups_connected.1 g m unseeded [⟨"a", 4⟩, ⟨"b", 5⟩, ⟨"c", 7⟩] rfl
  refine ⟨outcome, last, hpropagate, fun node hnode => ?_⟩
  obtain ⟨origin, first, hfirst, hconnected, hlabel⟩ := hlabels 2 node hnode
  obtain rfl := halone origin hconnected
  cases hfirst
  exact hlabel

end Cohort
