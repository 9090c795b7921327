import Cohort.SharingGraph
import Mathlib.Data.List.Nodup
import Mathlib.Tactic.ByContra
import Mathlib.Tactic.Tauto

/-! Graphs made from drafts: the names ascend, and each edge joins two of them once, the earlier to
the later, by the positive sum of what was drafted between the two. -/

namespace Cohort

theorem Identity.compare_eq_lt {first second : Identity} :
    compare first second = .lt ↔ first < second :=
  compareOfLessAndEq_eq_lt

def Link.Before (x y : Link) : Prop :=
  x.left < y.left ∨ x.left = y.left ∧ x.right < y.right

instance : Std.Irrefl Link.Before where
  irrefl link h := by
    unfold Link.Before at h
    omega

instance : Std.Antisymm Link.Before where
  antisymm x y hxy hyx := by
    unfold Link.Before at hxy hyx
    omega

namespace SharingGraph

namespace Draft

inductive Made : Draft → Prop
  | empty : Made ∅
  | vertex {d : Draft} (made : Made d) (name : Identity) : Made (d.addVertex name)
  | link {d : Draft} (made : Made d) (first second : Identity) (weight : Weight) :
      Made (d.addLink first second weight)

/-- What a draft says of a pair is said of two drafted names in their order, with some weight. -/
def Sound (d : Draft) : Prop :=
  ∀ first second weight, ((first, second), weight) ∈ d.pairs →
    first < second ∧ first ∈ d.vertices ∧ second ∈ d.vertices ∧ 0 < weight

variable {d : Draft}

theorem mem_names {name : Identity} : name ∈ d.names ↔ name ∈ d.vertices :=
  Std.ExtTreeSet.mem_toList

theorem mem_addVertex {name other : Identity} :
    other ∈ (d.addVertex name).vertices ↔ other = name ∨ other ∈ d.vertices := by
  simp [addVertex, Std.ExtTreeSet.mem_insert, @eq_comm _ other name]

theorem Sound.addVertex (sound : d.Sound) (name : Identity) : (d.addVertex name).Sound := by
  intro first second weight hmem
  obtain ⟨hlt, hfirst, hsecond, hpositive⟩ := sound first second weight hmem
  exact ⟨hlt, mem_addVertex.mpr (.inr hfirst), mem_addVertex.mpr (.inr hsecond), hpositive⟩

theorem pairOf_cases {first second : Identity} (h : first ≠ second) :
    (first < second ∧ pairOf first second = (first, second)) ∨
      (second < first ∧ pairOf first second = (second, first)) := by
  unfold pairOf
  by_cases hlt : second < first
  · exact .inr ⟨hlt, if_pos hlt⟩
  · rw [String.not_lt] at hlt
    refine .inl ⟨?_, if_neg (String.not_lt.mpr hlt)⟩
    rw [← String.not_le]
    exact fun hle => h (String.le_antisymm hlt hle)

theorem Sound.addLink (sound : d.Sound) (first second : Identity) (weight : Weight) :
    (d.addLink first second weight).Sound := by
  unfold Draft.addLink
  split
  next => exact sound
  next hlink =>
    rw [not_or] at hlink
    intro left right w hmem
    rcases List.mem_cons.mp hmem with hnew | hold
    · obtain ⟨hpair, rfl⟩ := Prod.mk.injEq .. ▸ hnew
      have hboth : ∀ name, name = first ∨ name = second →
          name ∈ ((d.addVertex first).addVertex second).vertices := by
        rintro name (rfl | rfl)
        · exact mem_addVertex.mpr (.inr (mem_addVertex.mpr (.inl rfl)))
        · exact mem_addVertex.mpr (.inl rfl)
      rcases pairOf_cases hlink.1 with ⟨hlt, hcase⟩ | ⟨hlt, hcase⟩
      · rw [hcase] at hpair
        cases hpair
        exact ⟨hlt, hboth _ (.inl rfl), hboth _ (.inr rfl), Nat.pos_of_ne_zero hlink.2⟩
      · rw [hcase] at hpair
        cases hpair
        exact ⟨hlt, hboth _ (.inr rfl), hboth _ (.inl rfl), Nat.pos_of_ne_zero hlink.2⟩
    · exact ((sound.addVertex first).addVertex second) left right w hold

theorem Made.sound (made : d.Made) : d.Sound := by
  induction made with
  | empty =>
    intro first second weight hmem
    cases hmem
  | vertex _ name ih => exact ih.addVertex name
  | link _ first second weight ih => exact ih.addLink first second weight

theorem count_addLink (d : Draft) (first second : Identity) (weight : Weight)
    (pair : Identity × Identity) : (d.addLink first second weight).weights.count pair =
      d.weights.count pair +
        if first ≠ second ∧ pairOf first second = pair then weight else 0 := by
  unfold addLink
  by_cases hsame : first = second
  · simp [hsame]
  · by_cases hweight : weight = 0
    · simp [hweight]
    · simp only [hsame, hweight, or_self, if_false, weights, Tally.count_ofList, Tally.share_cons,
        Std.compare_eq_iff_eq, ne_eq, not_false_eq_true, true_and]
      exact Nat.add_comm ..

theorem mem_addLink {first second name : Identity} {weight : Weight} :
    name ∈ (d.addLink first second weight).vertices ↔
      name ∈ d.vertices ∨ (first ≠ second ∧ weight ≠ 0) ∧ (name = first ∨ name = second) := by
  unfold addLink
  split
  next hnone =>
    have hskip : ¬ (first ≠ second ∧ weight ≠ 0) := by
      rintro ⟨hne, hweight⟩
      exact hnone.elim hne hweight
    simp [hskip]
  next hlink =>
    rw [not_or] at hlink
    simp only [mem_addVertex, hlink, ne_eq, not_false_eq_true, and_self, true_and]
    exact ⟨fun h => by tauto, fun h => by tauto⟩

def graph (d : Draft) : SharingGraph where
  vertices := d.names.toArray
  links := d.weights.entries.map fun entry =>
    Link.mk (d.positions.getD entry.1.1 0) (d.positions.getD entry.1.2 0) entry.2

theorem totalWeight_graph (d : Draft) : d.graph.totalWeight = d.weights.total := by
  rw [totalWeight, graph, List.map_map]
  rfl

theorem build_eq (d : Draft) :
    d.build = if d.weights.total < wordBound then .ok d.graph else .error .sum := by
  change (inWord .sum d.graph.totalWeight >>= fun _ => .ok d.graph) = _
  rw [totalWeight_graph, inWord]
  split <;> rfl

theorem build_eq_ok {g : SharingGraph} :
    d.build = .ok g ↔ g.totalWeight < wordBound ∧ g.vertices = d.names.toArray ∧
      g.links = d.weights.entries.map fun ((first, second), weight) =>
        Link.mk (d.positions.getD first 0) (d.positions.getD second 0) weight := by
  rw [build_eq]
  constructor
  · intro h
    split at h
    next hfits =>
      cases h
      exact ⟨by rwa [totalWeight_graph], rfl, rfl⟩
    next => cases h
  · rintro ⟨htotal, hvertices, hlinks⟩
    have hsame : g = d.graph := SharingGraph.ext hvertices hlinks
    rw [hsame, totalWeight_graph] at htotal
    rw [if_pos htotal, hsame]

theorem graph_of_build {g : SharingGraph} (built : d.build = .ok g) : g = d.graph :=
  SharingGraph.ext (build_eq_ok.mp built).2.1 (build_eq_ok.mp built).2.2

/-- The graph depends on the names and on the sum for each pair alone. -/
theorem build_congr {d e : Draft} (hvertices : ∀ name, name ∈ d.vertices ↔ name ∈ e.vertices)
    (hweights : ∀ pair, d.weights.count pair = e.weights.count pair) : d.build = e.build := by
  have hv : d.vertices = e.vertices := Std.ExtTreeSet.ext_mem hvertices
  have hw : d.weights = e.weights := Tally.ext hweights
  simp only [build, positions, names, hv, hw]

theorem exists_pair_of_weights {pair : Identity × Identity} (h : 0 < d.weights.count pair) :
    ∃ weight, (pair, weight) ∈ d.pairs := by
  rw [weights, Tally.count_ofList] at h
  obtain ⟨⟨_, weight⟩, hentry, rfl⟩ := List.mem_map.mp (Tally.mem_keys_of_share_pos h)
  exact ⟨weight, hentry⟩

theorem names_getD_positions {name : Identity} (h : name ∈ d.vertices) :
    d.names[d.positions.getD name 0]? = some name := by
  obtain ⟨position, hposition⟩ := List.mem_iff_getElem?.mp (mem_names.mpr h)
  rwa [Std.ExtTreeMap.getD_eq_getD_getElem?, getElem?_positions.mpr hposition, Option.getD_some]

theorem Sound.names_of_entry (sound : d.Sound) {first second : Identity} {weight : Weight}
    (h : ((first, second), weight) ∈ d.weights.entries) :
    d.names[d.positions.getD first 0]? = some first ∧
      d.names[d.positions.getD second 0]? = some second := by
  obtain ⟨hcount, hpositive⟩ := Tally.mem_entries.mp h
  obtain ⟨w, hpair⟩ := exists_pair_of_weights (hcount ▸ hpositive)
  obtain ⟨-, hfirst, hsecond, -⟩ := sound first second w hpair
  exact ⟨names_getD_positions hfirst, names_getD_positions hsecond⟩

theorem Sound.mem_links (sound : d.Sound) {g : SharingGraph} (built : d.build = .ok g)
    {link : Link} : link ∈ g.links ↔ ∃ first second, d.names[link.left]? = some first ∧
      d.names[link.right]? = some second ∧ d.weights.count (first, second) = link.weight ∧
        0 < link.weight := by
  obtain ⟨-, -, hlinks⟩ := build_eq_ok.mp built
  rw [hlinks, List.mem_map]
  constructor
  · rintro ⟨⟨⟨first, second⟩, weight⟩, hentry, rfl⟩
    obtain ⟨hcount, hpositive⟩ := Tally.mem_entries.mp hentry
    obtain ⟨hfirst, hsecond⟩ := sound.names_of_entry hentry
    exact ⟨first, second, hfirst, hsecond, hcount, hpositive⟩
  · rintro ⟨first, second, hi, hj, hcount, hpositive⟩
    refine ⟨((first, second), link.weight), Tally.mem_entries.mpr ⟨hcount, hpositive⟩, ?_⟩
    simp only [Std.ExtTreeMap.getD_eq_getD_getElem?, getElem?_positions.mpr hi,
      getElem?_positions.mpr hj, Option.getD_some]

theorem Sound.nodup_links (sound : d.Sound) {g : SharingGraph} (built : d.build = .ok g) :
    g.links.Nodup := by
  obtain ⟨-, -, hlinks⟩ := build_eq_ok.mp built
  rw [hlinks]
  refine List.Nodup.map_on ?_ (List.Nodup.of_map _ (Tally.nodup_keys d.weights))
  rintro ⟨⟨first, second⟩, weight⟩ hentry ⟨⟨first', second'⟩, weight'⟩ hentry' heq
  obtain ⟨hleft, hright, hweight⟩ := Link.mk.inj heq
  obtain ⟨hfirst, hsecond⟩ := sound.names_of_entry hentry
  obtain ⟨hfirst', hsecond'⟩ := sound.names_of_entry hentry'
  rw [hleft, hfirst'] at hfirst
  rw [hright, hsecond'] at hsecond
  obtain rfl := Option.some.inj hfirst
  obtain rfl := Option.some.inj hsecond
  obtain rfl : weight = weight' := hweight
  rfl

end Draft

def Built (g : SharingGraph) : Prop :=
  ∃ d : Draft, d.Made ∧ d.build = .ok g

/-- What the graph of a draft keeps to: no edge is a loop, none leaves the graph. -/
structure Simple (g : SharingGraph) : Prop where
  ordered : ∀ link ∈ g.links, link.left < link.right
  inside : ∀ link ∈ g.links, link.right < g.vertexCount

section Built

variable {g : SharingGraph} (built : g.Built)

include built

theorem Built.nodup_links : g.links.Nodup := by
  obtain ⟨d, made, hbuild⟩ := built
  exact made.sound.nodup_links hbuild

theorem Built.totalWeight_lt : g.totalWeight < wordBound := by
  obtain ⟨d, -, hbuild⟩ := built
  exact (Draft.build_eq_ok.mp hbuild).1

theorem Built.ascending : g.vertices.toList.Pairwise (· < ·) := by
  obtain ⟨d, -, hbuild⟩ := built
  rw [(Draft.build_eq_ok.mp hbuild).2.1]
  exact d.names_ascending.imp Identity.compare_eq_lt.mp

theorem Built.nodup_vertices : g.vertices.toList.Nodup := by
  refine built.ascending.imp ?_
  rintro name _ hlt rfl
  exact String.lt_irrefl _ hlt

theorem Built.name_lt {i j : Nat} (hlt : i < j) {first second : Identity}
    (hfirst : g.vertices[i]? = some first) (hsecond : g.vertices[j]? = some second) :
    first < second := by
  rw [← Array.getElem?_toList] at hfirst hsecond
  obtain ⟨hi, rfl⟩ := List.getElem?_eq_some_iff.mp hfirst
  obtain ⟨hj, rfl⟩ := List.getElem?_eq_some_iff.mp hsecond
  exact List.pairwise_iff_getElem.mp built.ascending i j hi hj hlt

theorem Built.position_lt {i j : Nat} {first second : Identity} (hlt : first < second)
    (hfirst : g.vertices[i]? = some first) (hsecond : g.vertices[j]? = some second) : i < j := by
  by_contra hle
  rcases Nat.lt_or_eq_of_le (Nat.le_of_not_lt hle) with hless | rfl
  · exact String.lt_asymm hlt (built.name_lt hless hsecond hfirst)
  · cases hfirst.symm.trans hsecond
    exact String.lt_irrefl _ hlt

theorem Built.position_unique {i j : Nat} {name : Identity} (hi : g.vertices[i]? = some name)
    (hj : g.vertices[j]? = some name) : i = j := by
  rcases Nat.lt_trichotomy i j with hlt | heq | hlt
  · exact absurd (built.name_lt hlt hi hj) (String.lt_irrefl _)
  · exact heq
  · exact absurd (built.name_lt hlt hj hi) (String.lt_irrefl _)

theorem Built.links_ascending : g.links.Pairwise Link.Before := by
  have ⟨d, made, hbuild⟩ := built
  obtain ⟨-, hvertices, hlinks⟩ := Draft.build_eq_ok.mp hbuild
  have hordered : d.weights.entries.Pairwise fun x y => compare x.1 y.1 = .lt :=
    Std.ExtTreeMap.ordered_keys_toList
  rw [hlinks, List.pairwise_map]
  refine hordered.imp_of_mem ?_
  rintro ⟨⟨first, second⟩, weight⟩ ⟨⟨first', second'⟩, weight'⟩ hentry hentry' hlt
  obtain ⟨hi, hj⟩ := made.sound.names_of_entry hentry
  obtain ⟨hi', hj'⟩ := made.sound.names_of_entry hentry'
  rw [← List.getElem?_toArray, ← hvertices] at hi hj hi' hj'
  rw [compare_pair, Ordering.then_eq_lt] at hlt
  simp only [Identity.compare_eq_lt, Std.compare_eq_iff_eq] at hlt
  rcases hlt with hfirst | ⟨rfl, hsecond⟩
  · exact .inl (built.position_lt hfirst hi hi')
  · exact .inr ⟨rfl, built.position_lt hsecond hj hj'⟩

theorem Built.simple : g.Simple := by
  have ⟨d, made, hbuild⟩ := built
  obtain ⟨-, hvertices, -⟩ := Draft.build_eq_ok.mp hbuild
  have hends : ∀ link ∈ g.links, link.left < link.right ∧ link.right < g.vertexCount := by
    intro link hmem
    obtain ⟨first, second, hi, hj, hcount, hpositive⟩ := (made.sound.mem_links hbuild).mp hmem
    obtain ⟨w, hpair⟩ := Draft.exists_pair_of_weights (hcount ▸ hpositive)
    obtain ⟨hlt, -⟩ := made.sound first second w hpair
    rw [← List.getElem?_toArray, ← hvertices] at hi hj
    exact ⟨built.position_lt hlt hi hj, (Array.getElem?_eq_some_iff.mp hj).1⟩
  exact ⟨fun link hmem => (hends link hmem).1, fun link hmem => (hends link hmem).2⟩

theorem Built.positive : ∀ link ∈ g.links, 0 < link.weight := by
  obtain ⟨d, made, hbuild⟩ := built
  intro link hmem
  obtain ⟨_, _, -, -, -, hpositive⟩ := (made.sound.mem_links hbuild).mp hmem
  exact hpositive

end Built

end SharingGraph

end Cohort
