import Cohort.Clustering
import Cohort.Proofs.SharingGraph

/-! Passes come to an end. Every change of a label moves weight to the edges between equal labels,
and there is no more weight than the graph has. -/

namespace Cohort

open Cohort.Random (Source)

def Link.intra (labels : Labels) (link : Link) : Nat :=
  if labels[link.left]? = labels[link.right]? then link.weight else 0

def Link.vote (labels : Labels) (position : Nat) (label : Label) (link : Link) : Nat :=
  match link.seenFrom position with
  | none => 0
  | some (other, weight) => if labels[other]? = some label then weight else 0

theorem Link.intra_set {link : Link} (hloop : link.left ≠ link.right) {labels : Labels}
    {position : Nat} {current : Label} (h : labels[position]? = some current) (label : Label) :
    link.intra (labels.setIfInBounds position label) + link.vote labels position current =
      link.intra labels + link.vote labels position label := by
  obtain ⟨hinside, -⟩ := Array.getElem?_eq_some_iff.mp h
  unfold intra vote seenFrom
  by_cases hleft : link.left = position
  · subst hleft
    simp only [Array.getElem?_setIfInBounds_self, hinside, if_true,
      Array.getElem?_setIfInBounds_ne hloop, h, eq_comm, Nat.add_comm]
  · by_cases hright : link.right = position
    · subst hright
      simp only [Array.getElem?_setIfInBounds_self, hinside, if_true, hleft, if_false,
        Array.getElem?_setIfInBounds_ne (Ne.symm hloop), h, Nat.add_comm]
    · simp only [Array.getElem?_setIfInBounds_ne (Ne.symm hleft),
        Array.getElem?_setIfInBounds_ne (Ne.symm hright), hleft, hright, if_false]

theorem Tally.count_of_leaders_nil {t : Tally Label} (h : t.leaders = []) (label : Label) :
    t.count label = 0 := by
  have hmost := t.count_le_best label
  rcases t.best_mem with hzero | ⟨best, hbest⟩
  · omega
  · by_contra hpositive
    have hleader : best ∈ t.leaders :=
      Tally.mem_leaders.mpr ⟨by omega, fun other => hbest ▸ t.count_le_best other⟩
    rw [h] at hleader
    cases hleader

namespace SharingGraph

variable {g : SharingGraph}

def intra (g : SharingGraph) (labels : Labels) : Nat :=
  addUp (g.links.map (·.intra labels))

theorem intra_le (g : SharingGraph) (labels : Labels) : g.intra labels ≤ g.totalWeight := by
  unfold intra totalWeight
  induction g.links with
  | nil => exact Nat.le_refl 0
  | cons link rest ih =>
    have hlink : link.intra labels ≤ link.weight := by
      unfold Link.intra
      split
      next => exact Nat.le_refl _
      next => exact Nat.zero_le _
    exact Nat.add_le_add hlink ih

theorem count_ballot (labels : Labels) {position : Nat} (h : position < g.vertexCount)
    (label : Label) : (g.ballot labels position).count label =
      addUp (g.links.map (·.vote labels position label)) := by
  rw [ballot, Tally.count_ofList, votes, neighbours_eq, if_pos h]
  induction g.links with
  | nil => rfl
  | cons link rest ih =>
    rw [List.map_cons, addUp_cons, ← ih, rowOf, List.filterMap_cons, Link.vote]
    cases link.seenFrom position with
    | none => exact (Nat.zero_add _).symm
    | some seen =>
      obtain ⟨other, weight⟩ := seen
      cases hlabel : labels[other]? with
      | none => simp [rowOf, hlabel]
      | some found => simp [rowOf, hlabel]

theorem intra_set (simple : g.Simple) {labels : Labels} (hsize : labels.size = g.vertexCount)
    {position : Nat} {current : Label} (h : labels[position]? = some current) (label : Label) :
    g.intra (labels.setIfInBounds position label) + (g.ballot labels position).count current =
      g.intra labels + (g.ballot labels position).count label := by
  obtain ⟨hinside, -⟩ := Array.getElem?_eq_some_iff.mp h
  rw [hsize] at hinside
  rw [count_ballot labels hinside, count_ballot labels hinside]
  have hloop : ∀ link ∈ g.links, link.left ≠ link.right :=
    fun link hmem => Nat.ne_of_lt (simple.ordered link hmem)
  unfold intra
  generalize g.links = links at hloop
  induction links with
  | nil => rfl
  | cons link rest ih =>
    have hlink := Link.intra_set (hloop link List.mem_cons_self) h label
    have hrest := ih fun other hmem => hloop other (List.mem_cons_of_mem link hmem)
    simp only [List.map_cons, addUp_cons]
    omega

/-- No label has more weight around a vertex than its own. -/
def Settled (g : SharingGraph) (labels : Labels) (position : Nat) : Prop :=
  ∀ current, labels[position]? = some current → ∀ label,
    (g.ballot labels position).count label ≤ (g.ballot labels position).count current

theorem settled_of_outside {labels : Labels} {position : Nat} (h : labels.size ≤ position) :
    g.Settled labels position := by
  intro current hcurrent
  rw [Array.getElem?_eq_none h] at hcurrent
  cases hcurrent

/-- A visit does nothing at a settled vertex; at any other it puts a leader in the place of a label
that is none, and counts a change. -/
theorem visit_cases (g : SharingGraph) (sweep : Sweep) (position : Nat) :
    (g.visit sweep position = sweep ∧ g.Settled sweep.labels position) ∨
    ∃ current label source, sweep.labels[position]? = some current ∧
      current ∉ (g.ballot sweep.labels position).leaders ∧
      label ∈ (g.ballot sweep.labels position).leaders ∧
      g.visit sweep position =
        ⟨sweep.labels.setIfInBounds position label, source, sweep.changes + 1⟩ := by
  unfold visit Settled
  cases hlabel : sweep.labels[position]? with
  | none => exact .inl ⟨rfl, by simp⟩
  | some current =>
    dsimp only
    split
    next hcurrent =>
      refine .inl ⟨rfl, ?_⟩
      rintro _ ⟨⟩
      exact (Tally.mem_leaders.mp hcurrent).2
    next hcurrent =>
      cases hleaders : (g.ballot sweep.labels position).leaders with
      | nil =>
        rw [Random.Source.choose_nil]
        refine .inl ⟨rfl, ?_⟩
        rintro _ ⟨⟩ label
        rw [Tally.count_of_leaders_nil hleaders]
        exact Nat.zero_le _
      | cons first rest =>
        obtain ⟨label, hmem, hchosen⟩ := sweep.source.choose_cons first rest
        rw [hleaders] at hcurrent
        generalize sweep.source.choose (first :: rest) = choice at hchosen
        obtain ⟨_, source⟩ := choice
        cases hchosen
        exact .inr ⟨current, label, source, rfl, hcurrent, hmem, rfl⟩

theorem count_lt_of_leader {t : Tally Label} {current label : Label} (hleader : label ∈ t.leaders)
    (hcurrent : current ∉ t.leaders) : t.count current < t.count label := by
  obtain ⟨hpositive, hmost⟩ := Tally.mem_leaders.mp hleader
  by_contra hle
  apply hcurrent
  rw [Tally.mem_leaders]
  refine ⟨by omega, fun other => ?_⟩
  have := hmost other
  omega

/-- A visit raises the weight between equal labels by as much as it adds to the changes. -/
theorem intra_visit (simple : g.Simple) {sweep : Sweep}
    (hsize : sweep.labels.size = g.vertexCount) (position : Nat) :
    g.intra sweep.labels + (g.visit sweep position).changes ≤
      g.intra (g.visit sweep position).labels + sweep.changes := by
  rcases g.visit_cases sweep position with ⟨hsame, -⟩ |
    ⟨current, label, source, hlabel, hcurrent, hleader, hchanged⟩
  · exact Nat.le_of_eq (by rw [hsame])
  · rw [hchanged]
    have hset := intra_set simple hsize hlabel label
    have hless := count_lt_of_leader hleader hcurrent
    dsimp only
    omega

theorem intra_foldl_visit (simple : g.Simple) (order : List Nat) {sweep : Sweep}
    (hsize : sweep.labels.size = g.vertexCount) :
    g.intra sweep.labels + (order.foldl g.visit sweep).changes ≤
      g.intra (order.foldl g.visit sweep).labels + sweep.changes := by
  induction order generalizing sweep with
  | nil => exact Nat.le_refl _
  | cons position rest ih =>
    have hvisit := intra_visit simple hsize position
    have hrest := ih ((g.size_visit sweep position).trans hsize)
    rw [List.foldl_cons]
    omega

theorem intra_pass (simple : g.Simple) {labels : Labels} (hsize : labels.size = g.vertexCount)
    (order : List Nat) (source : Source) :
    g.intra labels + (g.pass order labels source).changes ≤
      g.intra (g.pass order labels source).labels :=
  @intra_foldl_visit g simple order ⟨labels, source, 0⟩ hsize

end SharingGraph

namespace Run

variable {g : SharingGraph}

def sweep (g : SharingGraph) (run : Run) : SharingGraph.Sweep :=
  let (order, source) :=
    if run.outcome.iterations = 0 then (run.order, run.source)
    else run.source.shuffle run.order
  g.pass order.toList run.labels source

def changes (g : SharingGraph) : Nat → Run → Nat
  | 0, _ => 0
  | passes + 1, run =>
    if run.outcome.converged then 0 else (run.sweep g).changes + changes g passes (run.step g)

theorem labels_step (run : Run) : (run.step g).labels = (run.sweep g).labels :=
  rfl

theorem converged_step (run : Run) :
    (run.step g).outcome.converged = ((run.sweep g).changes == 0) :=
  rfl

theorem iterations_step (run : Run) :
    (run.step g).outcome.iterations = run.outcome.iterations + 1 :=
  rfl

theorem size_sweep (run : Run) : (run.sweep g).labels.size = run.labels.size :=
  g.size_pass _ _ _

theorem size_upTo (passes : Nat) (run : Run) :
    (run.upTo g passes).labels.size = run.labels.size := by
  induction passes generalizing run with
  | zero => rfl
  | succ passes ih =>
    unfold upTo
    split
    next => rfl
    next => exact (ih (run.step g)).trans (size_sweep run)

theorem upTo_of_converged {run : Run} (h : run.outcome.converged) (passes : Nat) :
    run.upTo g passes = run := by
  cases passes with
  | zero => rfl
  | succ passes => simp [upTo, h]

theorem changes_of_converged {run : Run} (h : run.outcome.converged) (passes : Nat) :
    run.changes g passes = 0 := by
  cases passes with
  | zero => rfl
  | succ passes => simp [changes, h]

theorem upTo_succ {run : Run} (h : run.outcome.converged = false) (passes : Nat) :
    run.upTo g (passes + 1) = (run.step g).upTo g passes := by
  simp [upTo, h]

theorem changes_succ {run : Run} (h : run.outcome.converged = false) (passes : Nat) :
    run.changes g (passes + 1) = (run.sweep g).changes + (run.step g).changes g passes := by
  simp [changes, h]

theorem intra_upTo (simple : g.Simple) (passes : Nat) {run : Run}
    (hsize : run.labels.size = g.vertexCount) :
    g.intra run.labels + run.changes g passes ≤ g.intra (run.upTo g passes).labels := by
  induction passes generalizing run with
  | zero => exact Nat.le_refl _
  | succ passes ih =>
    cases hconverged : run.outcome.converged with
    | true =>
      rw [upTo_of_converged hconverged, changes_of_converged hconverged]
      exact Nat.le_refl _
    | false =>
      have hsweep : g.intra run.labels + (run.sweep g).changes ≤ g.intra (run.sweep g).labels :=
        SharingGraph.intra_pass simple hsize _ _
      have hrest := @ih (run.step g) ((size_sweep run).trans hsize)
      rw [labels_step] at hrest
      rw [upTo_succ hconverged, changes_succ hconverged]
      omega

theorem converged_upTo {passes : Nat} {run : Run} (h : run.changes g passes < passes) :
    (run.upTo g passes).outcome.converged = true ∧
      (run.upTo g passes).outcome.iterations ≤
        run.outcome.iterations + run.changes g passes + 1 := by
  induction passes generalizing run with
  | zero => exact absurd h (Nat.not_lt_zero _)
  | succ passes ih =>
    cases hconverged : run.outcome.converged with
    | true =>
      rw [upTo_of_converged hconverged]
      exact ⟨hconverged, by omega⟩
    | false =>
      rw [changes_succ hconverged] at h ⊢
      rw [upTo_succ hconverged]
      have hiterations := @iterations_step g run
      -- a pass that is not the last uses up at least one change
      by_cases hlast : (run.sweep g).changes = 0
      · have hstep : (run.step g).outcome.converged = true := by
          rw [converged_step, hlast]
          rfl
        rw [upTo_of_converged hstep]
        exact ⟨hstep, by omega⟩
      · obtain ⟨hdone, hcount⟩ := @ih (run.step g) (by omega)
        exact ⟨hdone, by omega⟩

end Run

namespace Method

variable {g : SharingGraph}

def changes (m : Method) (unseeded : Source) (g : SharingGraph) (labels : Labels) : Nat :=
  (Run.start labels (m.source unseeded)).changes g m.cap

theorem run_bounded (simple : g.Simple) (m : Method) (unseeded : Source) {labels : Labels}
    (hsize : labels.size = g.vertexCount) :
    m.changes unseeded g labels ≤ g.totalWeight - g.intra labels ∧
      (g.totalWeight - g.intra labels < m.cap →
        (m.run unseeded g labels).outcome.converged = true ∧
          (m.run unseeded g labels).outcome.iterations ≤
            g.totalWeight - g.intra labels + 1) := by
  have hintra := @Run.intra_upTo g simple m.cap (Run.start labels (m.source unseeded)) hsize
  have hlast := g.intra_le ((Run.start labels (m.source unseeded)).upTo g m.cap).labels
  have hchanges : m.changes unseeded g labels ≤ g.totalWeight - g.intra labels :=
    Nat.le_sub_of_add_le' (Nat.le_trans hintra hlast)
  refine ⟨hchanges, fun hcap => ?_⟩
  obtain ⟨hdone, hcount⟩ := Run.converged_upTo (Nat.lt_of_le_of_lt hchanges hcap)
  have hstart : (Run.start labels (m.source unseeded)).outcome.iterations = 0 := rfl
  rw [hstart, Nat.zero_add] at hcount
  exact ⟨hdone, Nat.le_trans hcount (Nat.succ_le_succ hchanges)⟩

theorem length_of_checkNodes {nodes : List LabelNode} (h : checkNodes g nodes = .ok ()) :
    nodes.length = g.vertexCount := by
  by_contra hlength
  simp [checkNodes, hlength] at h

theorem size_labels (nodes : List LabelNode) : (LabelNode.labels nodes).size = nodes.length := by
  simp [LabelNode.labels]

theorem size_initial (g : SharingGraph) :
    (LabelNode.labels (LabelNode.initial g)).size = g.vertexCount := by
  simp [LabelNode.labels, LabelNode.initial, SharingGraph.vertexCount]

theorem propagate_eq_ok {m : Method} {unseeded : Source} {nodes : List LabelNode}
    (h : checkNodes g nodes = .ok ()) :
    m.propagate unseeded g nodes = .ok ((m.run unseeded g (LabelNode.labels nodes)).outcome,
      LabelNode.relabel nodes (m.run unseeded g (LabelNode.labels nodes)).labels) := by
  rw [propagate, h]
  rfl

theorem cluster_cases (m : Method) (unseeded : Source) (g : SharingGraph) :
    (∃ clustering, m.cluster unseeded g = .ok clustering ∧ clustering.outcome =
      (m.run unseeded g (LabelNode.labels (LabelNode.initial g))).outcome) ∨
    (m.statistics = true ∧ ∃ groups cause, g.modularity groups = .error cause ∧
      m.cluster unseeded g = .error cause) := by
  unfold cluster
  cases hstatistics : m.statistics with
  | false => exact .inl ⟨_, rfl, rfl⟩
  | true =>
    dsimp only
    cases hscore : g.modularity (LabelNode.groups (LabelNode.relabel (LabelNode.initial g)
        (m.run unseeded g (LabelNode.labels (LabelNode.initial g))).labels)) with
    | error cause => exact .inr ⟨rfl, _, cause, hscore, rfl⟩
    | ok score => exact .inl ⟨_, rfl, rfl⟩

theorem exists_converged (simple : g.Simple) {m : Method} (hstatistics : m.statistics = false)
    (hcap : g.totalWeight < m.cap) (unseeded : Source) : ∃ clustering,
      m.cluster unseeded g = .ok clustering ∧ clustering.outcome.converged = true := by
  rcases m.cluster_cases unseeded g with ⟨clustering, hcluster, houtcome⟩ | ⟨hfailed, -⟩
  · have hbounded := run_bounded simple m unseeded (size_initial g)
    have hconverged := (hbounded.2 (Nat.lt_of_le_of_lt (Nat.sub_le _ _) hcap)).1
    exact ⟨clustering, hcluster, houtcome ▸ hconverged⟩
  · rw [hstatistics] at hfailed
    cases hfailed

end Method

/-- A pass moves at least as much weight between equal labels as it makes changes, so a run makes no
more changes than there is weight, and with a cap above that it converges. -/
theorem propagation_terminates {g : SharingGraph} (built : g.Built) :
    (∀ labels : Labels, labels.size = g.vertexCount → ∀ order source,
      g.intra labels + (g.pass order labels source).changes ≤
        g.intra (g.pass order labels source).labels) ∧
    (∀ (m : Method) unseeded nodes, Method.checkNodes g nodes = .ok () →
      ∃ outcome last, m.propagate unseeded g nodes = .ok (outcome, last) ∧
        m.changes unseeded g (LabelNode.labels nodes) ≤
          g.totalWeight - g.intra (LabelNode.labels nodes) ∧
        (g.totalWeight - g.intra (LabelNode.labels nodes) < m.cap → outcome.converged = true ∧
          outcome.iterations ≤ g.totalWeight - g.intra (LabelNode.labels nodes) + 1)) ∧
    (∀ (m : Method) unseeded,
      m.changes unseeded g (LabelNode.labels (LabelNode.initial g)) ≤
        g.totalWeight - g.intra (LabelNode.labels (LabelNode.initial g)) ∧
      ((∃ clustering, m.cluster unseeded g = .ok clustering ∧
        (g.totalWeight - g.intra (LabelNode.labels (LabelNode.initial g)) < m.cap →
          clustering.outcome.converged = true ∧ clustering.outcome.iterations ≤
            g.totalWeight - g.intra (LabelNode.labels (LabelNode.initial g)) + 1)) ∨
      (m.statistics = true ∧ ∃ groups cause, g.modularity groups = .error cause ∧
        m.cluster unseeded g = .error cause))) := by
  have simple := built.simple
  refine ⟨?_, ?_, ?_⟩
  · intro labels hsize order source
    exact SharingGraph.intra_pass simple hsize order source
  · intro m unseeded nodes hnodes
    have hsize : (LabelNode.labels nodes).size = g.vertexCount :=
      (Method.size_labels nodes).trans (Method.length_of_checkNodes hnodes)
    exact ⟨_, _, Method.propagate_eq_ok hnodes, Method.run_bounded simple m unseeded hsize⟩
  · intro m unseeded
    obtain ⟨hchanges, hconverged⟩ :=
      Method.run_bounded simple m unseeded (Method.size_initial g)
    refine ⟨hchanges, ?_⟩
    rcases m.cluster_cases unseeded g with ⟨clustering, hcluster, houtcome⟩ | hfailed
    · exact .inl ⟨clustering, hcluster, houtcome ▸ hconverged⟩
    · exact .inr hfailed

theorem propagation_terminates_pair :
    let g : SharingGraph := { vertices := #["a", "b"], links := [⟨0, 1, 2⟩] }
    g.Built ∧ g.totalWeight - g.intra #[0, 1] = 2 ∧ ∀ (m : Method) unseeded, 2 < m.cap →
      ∃ outcome last, m.propagate unseeded g [⟨"a", 0⟩, ⟨"b", 1⟩] = .ok (outcome, last) ∧
        outcome.converged = true ∧ outcome.iterations ≤ 3 := by
  intro g
  have hbuilt : g.Built := ⟨_, .link .empty "a" "b" 2, rfl⟩
  refine ⟨hbuilt, by decide, fun m unseeded hcap => ?_⟩
  obtain ⟨outcome, last, hpropagate, -, hconverged⟩ :=
    (propagation_terminates hbuilt).2.1 m unseeded [⟨"a", 0⟩, ⟨"b", 1⟩] rfl
  exact ⟨outcome, last, hpropagate, hconverged hcap⟩

end Cohort
