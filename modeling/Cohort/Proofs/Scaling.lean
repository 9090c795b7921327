import Cohort.Proofs.Groups
import Cohort.Proofs.Modularity
import Cohort.Proofs.Projection.Scaled

/-! Weights on another scale. A graph of shared use and one with all weights multiplied give the
same votes up to the factor, so runs on them are the same from the first draw to the last. Only
overflow tells them apart: whatever fits in words on the larger scale fits on the smaller one. -/

namespace Cohort

open Cohort.Random (Source)

theorem inWord_of_mul {operation : Overflow} {k n m : Nat} (hk : 0 < k)
    (h : inWord operation (k * n) = .ok m) : inWord operation n = .ok n ∧ m = k * n := by
  obtain ⟨hfits, rfl⟩ := inWord_eq_ok.mp h
  exact ⟨inWord_eq_ok.mpr ⟨Nat.lt_of_le_of_lt (Nat.le_mul_of_pos_left n hk) hfits, rfl⟩, rfl⟩

theorem Tally.entries_of_mul {κ : Type} [Ord κ] [Std.TransOrd κ] [Std.LawfulEqOrd κ]
    {t u : Tally κ} {k : Nat} (hk : 0 < k) (h : ∀ key, u.count key = k * t.count key) :
    u.entries = t.entries.map (Prod.map id (k * ·)) := by
  have htable : u.table = t.table.map fun _ n => k * n := by
    apply Std.ExtTreeMap.ext_getElem?
    intro key
    rw [Std.ExtTreeMap.getElem?_map, getElem?_table, getElem?_table, h]
    by_cases hzero : t.count key = 0
    · simp [hzero]
    · rw [if_neg hzero, if_neg (Nat.mul_ne_zero hk.ne' hzero), Option.map_some]
  rw [entries, htable, Std.ExtTreeMap.toList_map]
  rfl

namespace SharingGraph

variable {g : SharingGraph} {k : Nat}

theorem totalWeight_scale (g : SharingGraph) (k : Nat) :
    (g.scale k).totalWeight = k * g.totalWeight := by
  rw [totalWeight, scale, List.map_map]
  exact addUp_map_mul k g.links (·.weight)

theorem weightedDegree_scale (g : SharingGraph) (k position : Nat) :
    (g.scale k).weightedDegree position = k * g.weightedDegree position := by
  rw [weightedDegree, neighbours_scale, List.map_map]
  exact addUp_map_mul k (g.neighbours position) (·.2)

theorem Simple.scale (simple : g.Simple) (k : Nat) : (g.scale k).Simple where
  ordered link hmem := by
    obtain ⟨own, hown, rfl⟩ := List.mem_map.mp hmem
    exact simple.ordered own hown
  inside link hmem := by
    obtain ⟨own, hown, rfl⟩ := List.mem_map.mp hmem
    exact simple.inside own hown

namespace Draft

def scale (d : Draft) (k : Nat) : Draft :=
  { d with pairs := d.pairs.map (Prod.map id (k * ·)) }

theorem Made.scale (hk : 0 < k) {d : Draft} (made : d.Made) : (d.scale k).Made := by
  induction made with
  | empty => exact .empty
  | vertex _ name ih => exact ih.vertex name
  | @link d _ first second weight ih =>
    have hlink : (d.addLink first second weight).scale k =
        (d.scale k).addLink first second (k * weight) := by
      simp only [addLink, Nat.mul_eq_zero, hk.ne', false_or]
      split <;> rfl
    rw [hlink]
    exact ih.link first second (k * weight)

theorem entries_weights_scale (hk : 0 < k) (d : Draft) :
    (d.scale k).weights.entries = d.weights.entries.map (Prod.map id (k * ·)) := by
  refine Tally.entries_of_mul hk fun pair => ?_
  rw [weights, weights, Tally.count_ofList, Tally.count_ofList]
  exact Tally.share_image (Set.injOn_id Set.univ) (fun _ _ => Set.mem_univ _) (Set.mem_univ pair)

end Draft

theorem Built.scale (built : g.Built) (hk : 0 < k) (hfits : k * g.totalWeight < wordBound) :
    (g.scale k).Built := by
  obtain ⟨d, made, hbuild⟩ := built
  obtain ⟨-, hvertices, hlinks⟩ := Draft.build_eq_ok.mp hbuild
  refine ⟨d.scale k, made.scale hk, Draft.build_eq_ok.mpr ⟨?_, hvertices, ?_⟩⟩
  · rwa [totalWeight_scale]
  · change g.links.map (·.scale k) = _
    rw [hlinks, Draft.entries_weights_scale hk, List.map_map, List.map_map]
    rfl

section Sums

variable {groups : List Group}

/-- A loop that can fail, beside one that goes the same way on images of its states. -/
theorem foldlM_of_image {σ τ α ε : Type} {step : σ → α → Except ε σ} {step' : τ → α → Except ε τ}
    {image : σ → τ} (hstep : ∀ state item next', step' (image state) item = .ok next' →
      ∃ next, step state item = .ok next ∧ image next = next') (items : List α) {state : σ}
    {last' : τ} (h : items.foldlM step' (image state) = .ok last') :
    ∃ last, items.foldlM step state = .ok last ∧ image last = last' := by
  induction items generalizing state with
  | nil =>
    cases h
    exact ⟨state, rfl, rfl⟩
  | cons item rest ih =>
    rw [List.foldlM_cons] at h ⊢
    cases hitem : step' (image state) item with
    | error cause =>
      rw [hitem] at h
      cases h
    | ok next' =>
      rw [hitem] at h
      obtain ⟨next, hnext, rfl⟩ := hstep state item next' hitem
      rw [hnext]
      exact ih h

theorem bump_of_mul (hk : 0 < k) {sums next' : Array Weight} {place amount : Nat}
    (h : bump (sums.map (k * ·)) (place, k * amount) = .ok next') :
    ∃ next, bump sums (place, amount) = .ok next ∧ next.map (k * ·) = next' := by
  have hold : (sums.map (k * ·)).getD place 0 = k * sums.getD place 0 := by
    rw [Array.getD_eq_getD_getElem?, Array.getD_eq_getD_getElem?, Array.getElem?_map]
    cases sums[place]? <;> rfl
  rw [bump, hold, ← Nat.mul_add] at h
  cases hsum : inWord .sum (k * (sums.getD place 0 + amount)) with
  | error cause =>
    rw [hsum] at h
    cases h
  | ok sum =>
    rw [hsum] at h
    obtain ⟨hfits, rfl⟩ := inWord_of_mul hk hsum
    cases h
    refine ⟨sums.setIfInBounds place (sums.getD place 0 + amount), ?_, Array.map_setIfInBounds⟩
    rw [bump, hfits]
    rfl

theorem addInternal_of_mul (hk : 0 < k) {assigned : Array (Option Nat)} {sums next' : Array Weight}
    {link : Link} (h : addInternal assigned (sums.map (k * ·)) (link.scale k) = .ok next') :
    ∃ next, addInternal assigned sums link = .ok next ∧ next.map (k * ·) = next' := by
  have hgroup : groupOf assigned (link.scale k) = groupOf assigned link := rfl
  have hweight : 2 * (link.scale k).weight = k * (2 * link.weight) := Nat.mul_left_comm 2 k _
  rw [addInternal, hgroup, hweight] at h
  rw [addInternal]
  cases hplace : groupOf assigned link with
  | none =>
    rw [hplace] at h
    cases h
    exact ⟨sums, rfl, rfl⟩
  | some group =>
    rw [hplace] at h
    dsimp only at h ⊢
    cases hdouble : inWord .product (k * (2 * link.weight)) with
    | error cause =>
      rw [hdouble] at h
      cases h
    | ok double =>
      rw [hdouble] at h
      obtain ⟨hfits, rfl⟩ := inWord_of_mul hk hdouble
      rw [hfits]
      exact bump_of_mul hk h

theorem internalSums_of_scale (hk : 0 < k) {sums' : Array Weight}
    (h : (g.scale k).internalSums groups = .ok sums') :
    ∃ sums, g.internalSums groups = .ok sums := by
  have hstart : (Array.replicate groups.length 0).map (k * ·) = Array.replicate groups.length 0 := by
    simp
  have hlinks : (g.scale k).internalSums groups = g.links.foldlM
      (fun sums link => addInternal (g.assignment groups) sums (link.scale k))
      ((Array.replicate groups.length 0).map (k * ·)) := by
    rw [hstart, ← List.foldlM_map]
    rfl
  obtain ⟨sums, hsums, -⟩ := foldlM_of_image (fun _ _ _ => addInternal_of_mul hk) _
    (hlinks.symm.trans h)
  exact ⟨sums, hsums⟩

theorem incidentSums_of_scale (hk : 0 < k) {sums' : Array Weight}
    (h : (g.scale k).incidentSums groups = .ok sums') :
    ∃ sums, g.incidentSums groups = .ok sums := by
  have hstart : (Array.replicate groups.length 0).map (k * ·) = Array.replicate groups.length 0 := by
    simp
  have hmemberships : (g.scale k).memberships groups = g.memberships groups := rfl
  rw [incidentSums_eq, hmemberships, incidentAlong, ← hstart] at h
  simp only [weightedDegree_scale] at h
  obtain ⟨sums, hsums, -⟩ := foldlM_of_image (fun _ _ _ => bump_of_mul hk) _ h
  exact ⟨sums, (g.incidentSums_eq groups).trans hsums⟩

theorem exists_modularity : (∃ score, g.modularity groups = .ok score) ↔ g.totalWeight = 0 ∨
    (∃ internal, g.internalSums groups = .ok internal) ∧
      ∃ incident, g.incidentSums groups = .ok incident := by
  unfold modularity
  by_cases hzero : g.totalWeight = 0
  · simp [hzero]
  · cases g.internalSums groups <;> cases g.incidentSums groups <;>
      simp [hzero, bind, Except.bind, pure, Except.pure]

theorem modularity_of_scale (hk : 0 < k) {score' : Float}
    (h : (g.scale k).modularity groups = .ok score') : ∃ score, g.modularity groups = .ok score := by
  rw [exists_modularity]
  have hscaled := exists_modularity.mp ⟨score', h⟩
  rw [totalWeight_scale] at hscaled
  rcases hscaled with hzero | ⟨⟨_, hinternal⟩, ⟨_, hincident⟩⟩
  · exact .inl ((Nat.mul_eq_zero.mp hzero).resolve_left hk.ne')
  · exact .inr ⟨internalSums_of_scale hk hinternal, incidentSums_of_scale hk hincident⟩

theorem Simple.exists_modularity (simple : g.Simple) (hfits : 2 * g.totalWeight < wordBound)
    (groups : List Group) : ∃ score, g.modularity groups = .ok score := by
  have hincident := (g.incidentSums_eq groups).trans (incidentAlong_eq simple hfits (.refl _))
  exact SharingGraph.exists_modularity.mpr
    (.inr ⟨⟨_, internalSums_eq simple hfits groups⟩, ⟨_, hincident⟩⟩)

end Sums

end SharingGraph

namespace Method

variable {g : SharingGraph} {k : Nat} {m : Method} {unseeded : Source}

theorem run_scale (hk : 0 < k) (m : Method) (unseeded : Source) (g : SharingGraph)
    (labels : Labels) : m.run unseeded (g.scale k) labels = m.run unseeded g labels := by
  have himage := m.run_image hk (strictMono_id.strictMonoOn {label | label ∈ labels}) unseeded g
  simpa only [Run.rename, Array.map_id] using himage

theorem propagate_scale (hk : 0 < k) (m : Method) (unseeded : Source) (g : SharingGraph)
    (nodes : List LabelNode) :
    m.propagate unseeded (g.scale k) nodes = m.propagate unseeded g nodes := by
  have hnodes : checkNodes (g.scale k) nodes = checkNodes g nodes := rfl
  rw [propagate, propagate, hnodes, run_scale hk]

theorem labels_scale (hk : 0 < k) (m : Method) (unseeded : Source) (g : SharingGraph) :
    m.labels unseeded (g.scale k) = m.labels unseeded g := by
  have hinitial : LabelNode.initial (g.scale k) = LabelNode.initial g := rfl
  rw [labels, hinitial, run_scale hk, labels]

theorem exists_cluster : (∃ clustering, m.cluster unseeded g = .ok clustering) ↔
    m.statistics = true → ∃ score, g.modularity (LabelNode.groups (LabelNode.relabel
      (LabelNode.initial g) (m.labels unseeded g))) = .ok score := by
  unfold cluster
  cases m.statistics with
  | false => simp [pure, Except.pure]
  | true =>
    dsimp only
    rw [← labels]
    cases g.modularity (LabelNode.groups (LabelNode.relabel (LabelNode.initial g)
      (m.labels unseeded g))) <;> simp [bind, Except.bind, pure, Except.pure]

theorem cluster_of_scale (hk : 0 < k) {scaled : Clustering}
    (h : m.cluster unseeded (g.scale k) = .ok scaled) :
    ∃ clustering, m.cluster unseeded g = .ok clustering ∧ scaled.groups = clustering.groups ∧
      scaled.nodes = clustering.nodes ∧ scaled.outcome = clustering.outcome := by
  have hinitial : LabelNode.initial (g.scale k) = LabelNode.initial g := rfl
  have hfound : ∃ clustering, m.cluster unseeded g = .ok clustering := by
    rw [exists_cluster]
    intro hstatistics
    obtain ⟨score', hscore⟩ := exists_cluster.mp ⟨scaled, h⟩ hstatistics
    rw [hinitial, labels_scale hk] at hscore
    exact SharingGraph.modularity_of_scale hk hscore
  obtain ⟨clustering, hcluster⟩ := hfound
  obtain ⟨houtcome, hnodes, hgroups⟩ := cluster_eq_ok hcluster
  obtain ⟨houtcome', hnodes', hgroups'⟩ := cluster_eq_ok h
  rw [hinitial, run_scale hk] at houtcome'
  rw [hinitial, labels_scale hk, ← hnodes] at hnodes'
  refine ⟨clustering, hcluster, ?_, hnodes', houtcome'.trans houtcome.symm⟩
  rw [hgroups', hnodes', hgroups]

end Method

/-- When all weights are multiplied, so are those of the projection, and runs on it make the same
choices and find the same groups, as long as nothing overflows. -/
theorem scale_immaterial {k : Nat} (hk : 0 < k) :
    (∀ (history other : List Change) (orders : AccessGraph.Orders (.after history))
      (orders' : AccessGraph.Orders (.after other)),
      (AccessGraph.after history).Scaled k (.after other) → ∀ target,
        ((AccessGraph.after other).fold orders' = .ok target ↔
          ∃ shared, (AccessGraph.after history).fold orders = .ok shared ∧
            k * shared.totalWeight < wordBound ∧ target = shared.scale k)) ∧
    (∀ g : SharingGraph, g.Built → k * g.totalWeight < wordBound → (g.scale k).Built) ∧
    ∀ (g : SharingGraph) (m : Method) unseeded,
      (∀ labels, m.run unseeded (g.scale k) labels = m.run unseeded g labels) ∧
      (∀ nodes, m.propagate unseeded (g.scale k) nodes = m.propagate unseeded g nodes) ∧
      (∀ scaled, m.cluster unseeded (g.scale k) = .ok scaled →
        ∃ clustering, m.cluster unseeded g = .ok clustering ∧
          scaled.groups = clustering.groups ∧ scaled.nodes = clustering.nodes ∧
            scaled.outcome = clustering.outcome) ∧
      (g.Built → (m.statistics = true → 2 * (k * g.totalWeight) < wordBound) →
        ∃ scaled, m.cluster unseeded (g.scale k) = .ok scaled) := by
  refine ⟨fun history other orders orders' scaled target => ?_, fun g built => built.scale hk,
    fun g m unseeded => ⟨m.run_scale hk unseeded g, m.propagate_scale hk unseeded g,
      fun scaled => Method.cluster_of_scale hk, fun built hfits => ?_⟩⟩
  · exact scaled.fold_eq_ok (AccessGraph.sound_after history) (AccessGraph.sound_after other) hk
      orders orders'
  · rw [Method.exists_cluster]
    intro hstatistics
    apply (built.simple.scale k).exists_modularity
    rw [SharingGraph.totalWeight_scale]
    exact hfits hstatistics

theorem scale_immaterial_twice :
    let accesses : List (Identity × ObjectId) := [("a", 7), ("b", 7), ("b", 7)]
    let others : List (Identity × ObjectId) :=
      [("b", 7), ("a", 7), ("b", 7), ("b", 7), ("a", 7), ("b", 7)]
    let shared : SharingGraph := { vertices := #["a", "b"], links := [⟨0, 1, 1⟩] }
    let m : Method := ⟨5, some 7, true⟩
    (AccessGraph.after (AccessGraph.increments accesses)).Scaled 2
        (.after (AccessGraph.increments others)) ∧
      (AccessGraph.after (AccessGraph.increments others)).fold default = .ok (shared.scale 2) ∧
      ∃ clustering scaled, m.cluster default shared = .ok clustering ∧
        m.cluster default (shared.scale 2) = .ok scaled ∧ scaled.groups = clustering.groups := by
  intro accesses others shared m
  obtain ⟨hfold, -, hruns⟩ := scale_immaterial Nat.two_pos
  have hscaled : (AccessGraph.after (AccessGraph.increments accesses)).Scaled 2
      (.after (AccessGraph.increments others)) := by
    apply AccessGraph.scaled_increments Nat.two_pos
    have hperm : others.Perm (accesses ++ accesses) := by decide
    intro access
    rw [hperm.count_eq, List.count_append, Nat.two_mul]
  have hbuilt : shared.Built := ⟨_, .link .empty "a" "b" 1, rfl⟩
  obtain ⟨-, -, hcluster, hexists⟩ := hruns shared m default
  obtain ⟨scaled, hfound⟩ := hexists hbuilt fun _ => by decide
  obtain ⟨clustering, hclustering, hgroups, -⟩ := hcluster scaled hfound
  refine ⟨hscaled, ?_, clustering, scaled, hclustering, hfound, hgroups⟩
  exact (hfold _ _ default default hscaled _).mpr ⟨shared, by decide +kernel, by decide, rfl⟩

end Cohort
