import Cohort.Proofs.Fixpoints
import Cohort.Proofs.Images

/-! Labels and their order. Labelled nodes, runs and groups are renamed label by label, and a run
from renamed nodes is the renamed run. -/

namespace Cohort

open Cohort.Random (Source)

namespace LabelNode

variable {f : Label → Label} {nodes : List LabelNode}

def rename (f : Label → Label) (node : LabelNode) : LabelNode :=
  { node with label := f node.label }

theorem labels_rename (f : Label → Label) (nodes : List LabelNode) :
    labels (nodes.map (rename f)) = (labels nodes).map f := by
  simp [labels, rename, Function.comp_def]

theorem relabel_rename (f : Label → Label) (nodes : List LabelNode) (labels : Labels) :
    relabel (nodes.map (rename f)) (labels.map f) = (relabel nodes labels).map (rename f) := by
  simp only [relabel, Array.toList_map, List.zipWith_map, List.map_zipWith, rename]

theorem identities_rename (f : Label → Label) (nodes : List LabelNode) :
    (nodes.map (rename f)).map (·.identity) = nodes.map (·.identity) := by
  simp [rename, Function.comp_def]

theorem mem_labels {node : LabelNode} (h : node ∈ nodes) : node.label ∈ labels nodes := by
  simpa [labels] using ⟨node, h, rfl⟩

theorem mem_rename (hf : Set.InjOn f {label | label ∈ labels nodes}) {name : Identity}
    {label : Label} (hlabel : label ∈ labels nodes) :
    ⟨name, f label⟩ ∈ nodes.map (rename f) ↔ ⟨name, label⟩ ∈ nodes := by
  rw [List.mem_map]
  constructor
  · rintro ⟨⟨_, own⟩, hnode, hsame⟩
    obtain ⟨rfl, hown⟩ := LabelNode.mk.inj hsame
    obtain rfl : own = label := hf (mem_labels hnode) hlabel hown
    exact hnode
  · intro hnode
    exact ⟨_, hnode, rfl⟩

end LabelNode

def Group.rename (f : Label → Label) (group : Group) : Group :=
  { group with id := f group.id }

theorem LabelNode.groups_rename {f : Label → Label} {nodes : List LabelNode}
    (hf : StrictMonoOn f {label | label ∈ labels nodes}) :
    groups (nodes.map (rename f)) = (groups nodes).map (Group.rename f) := by
  have hlabel {group : Group} (h : group ∈ groups nodes) : group.id ∈ labels nodes := by
    obtain ⟨⟨name, hnode⟩, -⟩ := mem_groups.mp h
    exact mem_labels hnode
  have hascending : ((groups nodes).map (Group.rename f)).Pairwise fun group other =>
      group.id < other.id := by
    rw [List.pairwise_map]
    exact (groups_ascending nodes).imp_of_mem fun h h' hlt => hf (hlabel h) (hlabel h') hlt
  refine (groups_ascending _).eq_of_mem_iff hascending fun group => ?_
  rw [List.mem_map]
  constructor
  · intro h
    obtain ⟨⟨name, hname⟩, hmembers⟩ := mem_groups.mp h
    obtain ⟨⟨_, label⟩, hnode, hsame⟩ := List.mem_map.mp hname
    obtain ⟨rfl, hid⟩ := LabelNode.mk.inj hsame
    have hmem : label ∈ labels nodes := mem_labels hnode
    refine ⟨⟨label, group.members⟩, mem_groups.mpr ⟨⟨_, hnode⟩, fun name => ?_⟩, ?_⟩
    · rw [hmembers, ← hid, mem_rename hf.injOn hmem]
    · exact Group.mk.injEq .. |>.mpr ⟨hid, rfl⟩
  · rintro ⟨own, h, rfl⟩
    obtain ⟨⟨name, hname⟩, hmembers⟩ := mem_groups.mp h
    refine mem_groups.mpr ⟨⟨name, (mem_rename hf.injOn (hlabel h)).mpr hname⟩, fun name => ?_⟩
    exact (hmembers name).trans (mem_rename hf.injOn (hlabel h)).symm

/-- When the labels at the start are replaced by others in the same order, a run makes the same
choices and ends with the labels that replace those it would have ended with. -/
theorem labels_opaque {g : SharingGraph} {nodes : List LabelNode}
    (accepted : Method.checkNodes g nodes = .ok ()) {f : Label → Label}
    (increasing : StrictMonoOn f {label | label ∈ LabelNode.labels nodes}) (m : Method)
    (unseeded : Source) :
    ∃ outcome last,
      m.propagate unseeded g nodes = .ok (outcome, last) ∧
      m.propagate unseeded g (nodes.map (.rename f)) = .ok (outcome, last.map (.rename f)) ∧
      (m.run unseeded g (LabelNode.labels (nodes.map (.rename f)))).source =
        (m.run unseeded g (LabelNode.labels nodes)).source ∧
      LabelNode.groups (last.map (.rename f)) = (LabelNode.groups last).map (.rename f) := by
  have hrun : m.run unseeded g (LabelNode.labels (nodes.map (.rename f))) =
      (m.run unseeded g (LabelNode.labels nodes)).rename f := by
    have himage := m.run_image Nat.one_pos increasing unseeded g
    rwa [SharingGraph.scale_one, ← LabelNode.labels_rename] at himage
  have haccepted : Method.checkNodes g (nodes.map (.rename f)) = .ok () := by
    rw [Method.checkNodes_eq_ok, LabelNode.identities_rename]
    exact Method.checkNodes_eq_ok.mp accepted
  have hsize : (m.run unseeded g (LabelNode.labels nodes)).labels.size = nodes.length :=
    (Run.size_upTo m.cap _).trans (Method.size_labels nodes)
  refine ⟨_, _, Method.propagate_eq_ok accepted, ?_, ?_, ?_⟩
  · rw [Method.propagate_eq_ok haccepted, hrun, ← LabelNode.relabel_rename]
    rfl
  · rw [hrun]
    rfl
  · apply LabelNode.groups_rename
    rw [LabelNode.labels_relabel hsize]
    exact increasing.mono fun label => (m.spread_run unseeded g (LabelNode.labels nodes)).mem

theorem labels_opaque_tie :
    let g : SharingGraph := { vertices := #["a", "b", "c"], links := [⟨0, 1, 2⟩, ⟨0, 2, 2⟩] }
    let f (label : Label) : Label := if label = 0 then 4 else 7 + label % 3
    let m : Method := ⟨5, some 7, false⟩
    ∃ outcome last, m.propagate default g [⟨"a", 0⟩, ⟨"b", 1⟩, ⟨"c", 2⟩] = .ok (outcome, last) ∧
      m.propagate default g [⟨"a", 4⟩, ⟨"b", 8⟩, ⟨"c", 9⟩] =
        .ok (outcome, last.map (.rename f)) ∧
      (m.run default g #[4, 8, 9]).source.drawn = 6 := by
  intro g f m
  have hincreasing : StrictMonoOn f
      {label | label ∈ LabelNode.labels [⟨"a", 0⟩, ⟨"b", 1⟩, ⟨"c", 2⟩]} := by
    have hinside (label) (h : label ∈ (#[0, 1, 2] : Labels)) : label < 3 := by
      simp only [List.mem_toArray, List.mem_cons, List.not_mem_nil, or_false] at h
      rcases h with rfl | rfl | rfl <;> decide
    intro label _ other hother hlt
    have hlast := hinside other hother
    simp only [f]
    grind
  obtain ⟨outcome, last, hrun, hrenamed, hsource, -⟩ :=
    labels_opaque (rfl : Method.checkNodes g _ = .ok ()) hincreasing m default
  have hnodes : [⟨"a", 0⟩, ⟨"b", 1⟩, ⟨"c", 2⟩].map (LabelNode.rename f) =
      [⟨"a", 4⟩, ⟨"b", 8⟩, ⟨"c", 9⟩] := rfl
  have hstart : LabelNode.labels [⟨"a", 0⟩, ⟨"b", 1⟩, ⟨"c", 2⟩] = #[0, 1, 2] := rfl
  have hother : LabelNode.labels [⟨"a", 4⟩, ⟨"b", 8⟩, ⟨"c", 9⟩] = #[4, 8, 9] := rfl
  have hdrawn : (m.run default g #[0, 1, 2]).source.drawn = 6 := by decide +kernel
  rw [hnodes] at hrenamed hsource
  rw [hstart, hother] at hsource
  exact ⟨outcome, last, hrun, hrenamed, by rw [hsource, hdrawn]⟩

end Cohort
