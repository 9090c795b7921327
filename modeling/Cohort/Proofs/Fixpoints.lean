import Cohort.Proofs.Components

/-! Labellings that passes leave alone. A pass that changes nothing finds every vertex that it
visits under one of the heaviest labels around it, and after that no order of the vertices and no
random source moves a label. -/

namespace Cohort

open Cohort.Random (Source)

namespace SharingGraph

variable {g : SharingGraph} {labels : Labels} {position : Nat}

def support (g : SharingGraph) (labels : Labels) (position : Nat) (label : Label) : Weight :=
  addUp ((g.neighbours position).map fun (other, weight) =>
    if labels[other]? = some label then weight else 0)

/-- Every vertex with neighbours carries a label that is the heaviest among their labels. -/
def LocallyOptimal (g : SharingGraph) (labels : Labels) : Prop :=
  ∀ position < g.vertexCount, g.neighbours position ≠ [] →
    ∃ label, labels[position]? = some label ∧
      (∃ seen ∈ g.neighbours position, labels[seen.1]? = some label) ∧
      ∀ seen ∈ g.neighbours position, ∀ other, labels[seen.1]? = some other →
        g.support labels position other ≤ g.support labels position label

theorem count_ballot_eq (labels : Labels) (position : Nat) (label : Label) :
    (g.ballot labels position).count label = g.support labels position label := by
  rw [ballot, Tally.count_ofList, votes, support]
  induction g.neighbours position with
  | nil => rfl
  | cons seen rest ih =>
    obtain ⟨other, weight⟩ := seen
    rw [List.map_cons, addUp_cons, ← ih, List.filterMap_cons]
    cases hlabel : labels[other]? with
    | none => simp [hlabel]
    | some found => simp [hlabel]

theorem weight_le_support {seen : Nat × Weight} (hmem : seen ∈ g.neighbours position)
    {label : Label} (hlabel : labels[seen.1]? = some label) :
    seen.2 ≤ g.support labels position label := by
  apply le_addUp
  exact List.mem_map.mpr ⟨seen, hmem, if_pos hlabel⟩

theorem Built.locallyOptimal_iff (built : g.Built) (hsize : labels.size = g.vertexCount) :
    g.LocallyOptimal labels ↔ ∀ position, g.Settled labels position := by
  constructor
  · intro h position current hcurrent label
    obtain ⟨hinside, -⟩ := Array.getElem?_eq_some_iff.mp hcurrent
    rcases Nat.eq_zero_or_pos ((g.ballot labels position).count label) with hzero | hpositive
    · rw [hzero]
      exact Nat.zero_le _
    · obtain ⟨other, weight, hmem, hlabel⟩ := exists_neighbour hpositive
      obtain ⟨own, hown, -, hmost⟩ :=
        h position (Nat.lt_of_lt_of_eq hinside hsize) (List.ne_nil_of_mem hmem)
      obtain rfl := Option.some.inj (hown.symm.trans hcurrent)
      rw [count_ballot_eq, count_ballot_eq]
      exact hmost _ hmem label hlabel
  · intro h position hinside hneighbours
    have hlabelled : position < labels.size := Nat.lt_of_lt_of_eq hinside hsize.symm
    have hmost := h position _ (Array.getElem?_eq_getElem hlabelled)
    simp only [count_ballot_eq] at hmost
    -- some label around the vertex has support, so its own label has
    obtain ⟨seen, hmem⟩ := List.exists_mem_of_ne_nil _ hneighbours
    obtain ⟨hother, hweight⟩ := built.neighbour hmem
    have hlabel := Array.getElem?_eq_getElem (Nat.lt_of_lt_of_eq hother hsize.symm)
    have hsupport := Nat.lt_of_lt_of_le hweight
      (Nat.le_trans (weight_le_support hmem hlabel) (hmost _))
    rw [← count_ballot_eq] at hsupport
    obtain ⟨other, weight, hneighbour, hown⟩ := exists_neighbour hsupport
    exact ⟨_, Array.getElem?_eq_getElem hlabelled, ⟨_, hneighbour, hown⟩,
      fun _ _ label _ => hmost label⟩

theorem Built.locallyOptimal_of_uniform (built : g.Built) (label : Label)
    (h : ∀ position < g.vertexCount, labels[position]? = some label) : g.LocallyOptimal labels := by
  intro position hinside hneighbours
  obtain ⟨seen, hmem⟩ := List.exists_mem_of_ne_nil _ hneighbours
  refine ⟨label, h position hinside, ⟨seen, hmem, h _ (built.neighbour hmem).1⟩, ?_⟩
  intro near hnear other hother
  rw [h _ (built.neighbour hnear).1] at hother
  cases hother
  exact Nat.le_refl _

theorem Settled.visit {sweep : Sweep} (h : g.Settled sweep.labels position) :
    g.visit sweep position = sweep := by
  rcases g.visit_cases sweep position with ⟨hsame, -⟩ |
    ⟨current, label, _, hcurrent, hlosing, hleader, -⟩
  · exact hsame
  · have hless := count_lt_of_leader hleader hlosing
    exact absurd hless (Nat.not_lt.mpr (h current hcurrent label))

theorem pass_of_settled (h : ∀ position, g.Settled labels position) (order : List Nat)
    (source : Source) : g.pass order labels source = ⟨labels, source, 0⟩ := by
  unfold pass
  induction order with
  | nil => rfl
  | cons position rest ih =>
    have hvisit : g.visit ⟨labels, source, 0⟩ position = ⟨labels, source, 0⟩ := (h position).visit
    rw [List.foldl_cons, hvisit, ih]

theorem settled_of_pass {order : List Nat} {source : Source}
    (hcovers : ∀ position < labels.size, position ∈ order)
    (h : (g.pass order labels source).changes = 0) (position : Nat) :
    g.Settled labels position := by
  rcases Nat.lt_or_ge position labels.size with hinside | houtside
  · exact (settled_foldl_visit (Nat.le_of_eq h)).2 position (hcovers position hinside)
  · exact settled_of_outside houtside

/-- A labelling is locally optimal when one pass over all vertices changes nothing, and then no pass
does. -/
theorem Built.locallyOptimal_iff_pass (built : g.Built) (hsize : labels.size = g.vertexCount) :
    (g.LocallyOptimal labels ↔ ∃ order source,
      (∀ position < g.vertexCount, position ∈ order) ∧
        (g.pass order labels source).changes = 0) ∧
    (g.LocallyOptimal labels ↔ ∀ order source,
      g.pass order labels source = ⟨labels, source, 0⟩) := by
  rw [built.locallyOptimal_iff hsize, ← hsize]
  refine ⟨⟨fun h => ?_, ?_⟩, ⟨pass_of_settled, fun h => ?_⟩⟩
  · refine ⟨List.range labels.size, default, fun _ => List.mem_range.mpr, ?_⟩
    rw [pass_of_settled h]
  · rintro ⟨order, source, hcovers, hchanges⟩
    exact settled_of_pass hcovers hchanges
  · have hchanges : (g.pass (List.range labels.size) labels default).changes = 0 := by rw [h]
    exact settled_of_pass (fun _ => List.mem_range.mpr) hchanges

end SharingGraph

namespace LabelNode

theorem labels_relabel {nodes : List LabelNode} {given : Labels}
    (h : given.size = nodes.length) : labels (relabel nodes given) = given := by
  have hlength : given.toList.length ≤ nodes.length := Nat.le_of_eq h
  have hsecond := List.map_snd_zip hlength
  rw [List.zip, List.map_zipWith] at hsecond
  rw [labels, relabel, List.map_zipWith]
  exact congrArg List.toArray hsecond

theorem relabel_labels (nodes : List LabelNode) : relabel nodes (labels nodes) = nodes := by
  simp [relabel, labels, List.zipWith_map_right, List.zipWith_self]

end LabelNode

namespace Method

variable {g : SharingGraph} {m : Method} {unseeded : Source}

theorem checkNodes_eq_ok {nodes : List LabelNode} :
    checkNodes g nodes = .ok () ↔ nodes.map (·.identity) = g.vertices.toList := by
  refine ⟨identities_of_checkNodes, fun h => ?_⟩
  have hlength : nodes.length = g.vertexCount := by
    simpa [SharingGraph.vertexCount] using congrArg List.length h
  have hplaced : misplaced g nodes = none := by
    rw [misplaced, List.find?_eq_none]
    rintro ⟨node, position⟩ hmem
    have hnode : nodes[position]? = some node := List.mem_zipIdx_iff_getElem?.mp hmem
    have hname := congrArg (·[position]?) h
    simp only [List.getElem?_map, hnode, Option.map_some, Array.getElem?_toList] at hname
    simp [SharingGraph.identity?, ← hname]
  simp [checkNodes, hlength, hplaced]

theorem of_propagate {nodes last : List LabelNode} {outcome : Outcome}
    (h : m.propagate unseeded g nodes = .ok (outcome, last)) :
    checkNodes g nodes = .ok () ∧
      outcome = (m.run unseeded g (LabelNode.labels nodes)).outcome ∧
      last = LabelNode.relabel nodes (m.run unseeded g (LabelNode.labels nodes)).labels := by
  cases hcheck : checkNodes g nodes with
  | error fault => simp [propagate, hcheck, bind, Except.bind] at h
  | ok =>
    rw [propagate_eq_ok hcheck] at h
    cases h
    exact ⟨rfl, rfl, rfl⟩

theorem propagate_of_settled (hcap : 1 ≤ m.cap) {nodes : List LabelNode}
    (hnodes : nodes.map (·.identity) = g.vertices.toList)
    (h : ∀ position, g.Settled (LabelNode.labels nodes) position) :
    m.propagate unseeded g nodes = .ok (⟨1, true, 0⟩, nodes) := by
  obtain ⟨passes, hpasses⟩ := Nat.exists_eq_succ_of_ne_zero (Nat.ne_of_gt hcap)
  have hstep (source : Source) : (Run.start (LabelNode.labels nodes) source).step g =
      ⟨Array.range (LabelNode.labels nodes).size, LabelNode.labels nodes, source,
        ⟨1, true, 0⟩⟩ := by
    simp [Run.step, Run.start, SharingGraph.pass_of_settled h]
  rw [propagate_eq_ok (checkNodes_eq_ok.mpr hnodes), run, hpasses, Run.upTo_succ rfl, hstep,
    Run.upTo_of_converged rfl, LabelNode.relabel_labels]

theorem identities_initial (g : SharingGraph) :
    (LabelNode.initial g).map (·.identity) = g.vertices.toList := by
  rw [LabelNode.initial, List.map_map]
  exact List.zipIdx_map_fst 0 _

/-- Nodes that lie in a local optimum, and that any run gives back after its first pass. -/
def Resting (g : SharingGraph) (nodes : List LabelNode) : Prop :=
  g.LocallyOptimal (LabelNode.labels nodes) ∧ ∀ (again : Method) unseeded, 1 ≤ again.cap →
    again.propagate unseeded g nodes = .ok (⟨1, true, 0⟩, nodes)

theorem resting_of_run (built : g.Built) {nodes : List LabelNode}
    (hnodes : nodes.map (·.identity) = g.vertices.toList)
    (h : (m.run unseeded g (LabelNode.labels nodes)).outcome.converged = true) :
    Resting g (LabelNode.relabel nodes (m.run unseeded g (LabelNode.labels nodes)).labels) := by
  have hlength := length_of_checkNodes (checkNodes_eq_ok.mpr hnodes)
  have hsize : (m.run unseeded g (LabelNode.labels nodes)).labels.size = nodes.length :=
    (Run.size_upTo m.cap _).trans (size_labels nodes)
  have hsettled := settled_run h
  rw [← LabelNode.labels_relabel hsize] at hsettled
  constructor
  · rw [built.locallyOptimal_iff]
    · exact hsettled
    · rw [LabelNode.labels_relabel hsize, hsize, hlength]
  · intro again unseeded hcap
    refine propagate_of_settled hcap ?_ hsettled
    rw [LabelNode.identities_relabel hsize, hnodes]

end Method

/-- A labelling is locally optimal when one pass over all vertices changes nothing, and then no pass
does. A run that converges ends there, and any run from there is over after one pass. -/
theorem fixpoints_are_optima :
    (∀ g : SharingGraph, g.Built → ∀ labels : Labels, labels.size = g.vertexCount →
      (g.LocallyOptimal labels ↔ ∃ order source,
        (∀ position < g.vertexCount, position ∈ order) ∧
          (g.pass order labels source).changes = 0) ∧
      (g.LocallyOptimal labels ↔ ∀ order source,
        g.pass order labels source = ⟨labels, source, 0⟩)) ∧
    (∀ g : SharingGraph, g.Built → ∀ (m : Method) unseeded nodes outcome last,
      m.propagate unseeded g nodes = .ok (outcome, last) → outcome.converged = true →
        Method.Resting g last) ∧
    ∀ g : SharingGraph, g.Built → ∀ (m : Method) unseeded clustering,
      m.cluster unseeded g = .ok clustering → clustering.outcome.converged = true →
        Method.Resting g clustering.nodes := by
  refine ⟨fun g built labels => built.locallyOptimal_iff_pass, ?_, ?_⟩
  · intro g built m unseeded nodes outcome last hpropagate hconverged
    obtain ⟨hcheck, rfl, rfl⟩ := Method.of_propagate hpropagate
    exact Method.resting_of_run built (Method.checkNodes_eq_ok.mp hcheck) hconverged
  · intro g built m unseeded clustering hcluster hconverged
    obtain ⟨houtcome, hnodes, -⟩ := Method.cluster_eq_ok hcluster
    rw [houtcome] at hconverged
    rw [hnodes]
    exact Method.resting_of_run built (Method.identities_initial g) hconverged

theorem fixpoints_are_optima_pair :
    let g : SharingGraph := { vertices := #["a", "b"], links := [⟨0, 1, 2⟩] }
    (∀ order source, g.pass order #[5, 5] source = ⟨#[5, 5], source, 0⟩) ∧
    ∀ unseeded, Method.Resting g [⟨"a", 5⟩, ⟨"b", 5⟩] ∧
      ∃ clustering, (⟨3, none, false⟩ : Method).cluster unseeded g = .ok clustering ∧
        clustering.outcome.converged = true ∧ Method.Resting g clustering.nodes := by
  intro g
  have hbuilt : g.Built := ⟨_, .link .empty "a" "b" 2, rfl⟩
  have hoptimal : g.LocallyOptimal #[5, 5] := hbuilt.locallyOptimal_of_uniform 5 (by decide)
  refine ⟨(fixpoints_are_optima.1 g hbuilt #[5, 5] rfl).2.mp hoptimal, fun unseeded => ⟨?_, ?_⟩⟩
  · have hpropagate : (⟨1, none, false⟩ : Method).propagate unseeded g [⟨"a", 5⟩, ⟨"b", 5⟩] =
        .ok (⟨1, true, 0⟩, [⟨"a", 5⟩, ⟨"b", 5⟩]) :=
      Method.propagate_of_settled (Nat.le_refl 1) rfl ((hbuilt.locallyOptimal_iff rfl).mp hoptimal)
    exact fixpoints_are_optima.2.1 g hbuilt _ unseeded _ _ _ hpropagate rfl
  · obtain ⟨clustering, hcluster, hconverged⟩ := Method.exists_converged hbuilt.simple
      (rfl : (⟨3, none, false⟩ : Method).statistics = false) (by decide) unseeded
    exact ⟨clustering, hcluster, hconverged,
      fixpoints_are_optima.2.2 g hbuilt _ unseeded clustering hcluster hconverged⟩

end Cohort
