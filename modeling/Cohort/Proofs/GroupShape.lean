import Cohort.Proofs.Fixpoints

/-! The groups of a run that came to an end. Around every vertex its own group is the heaviest, so
a vertex with neighbours is not left alone, and one without neighbours always is. -/

namespace Cohort

open Cohort.Random (Source)

namespace Group

variable {group : Group}

theorem names_eq_singleton {name : Identity}
    (h : ∀ other, other ∈ group.members ↔ other = name) : group.names = [name] := by
  rw [← List.perm_singleton,
    List.perm_ext_iff_of_nodup group.nodup_names (List.nodup_singleton _)]
  intro other
  rw [mem_names, h, List.mem_singleton]

theorem two_le_size {first second : Identity} (hfirst : first ∈ group.members)
    (hsecond : second ∈ group.members) (hne : first ≠ second) : 2 ≤ group.size := by
  have hnodup : [first, second].Nodup := by simpa using hne
  have hsubset : [first, second] ⊆ group.names := by
    simp [mem_names, hfirst, hsecond]
  rw [← length_names]
  exact (List.subperm_of_subset hnodup hsubset).length_le

end Group

namespace SharingGraph

variable {g : SharingGraph} {position : Nat}

def weightInto (g : SharingGraph) (position : Nat) (group : Group) : Weight :=
  addUp ((g.neighbours position).map fun (other, weight) =>
    if (g.identity? other).any group.contains then weight else 0)

theorem degree_eq_zero : g.degree position = 0 ↔ g.neighbours position = [] :=
  List.length_eq_zero_iff

theorem neighbour_of_joined {other : Nat} (hinside : position < g.vertexCount)
    (h : g.Joined position other) : ∃ weight, (other, weight) ∈ g.neighbours position := by
  obtain ⟨link, hlink, hends⟩ := h
  exact ⟨link.weight, mem_neighbours.mpr ⟨hinside, link, hlink,
    Link.seenFrom_eq_some.mpr ⟨rfl, hends⟩⟩⟩

theorem Connected.eq_of_isolated {other : Nat} (h : g.Connected position other)
    (hinside : position < g.vertexCount) (hisolated : g.degree position = 0) :
    other = position := by
  rcases Relation.ReflTransGen.cases_head h with hsame | ⟨next, hjoined, -⟩
  · exact hsame.symm
  · obtain ⟨weight, hmem⟩ := neighbour_of_joined hinside hjoined
    rw [degree_eq_zero.mp hisolated] at hmem
    cases hmem

theorem Built.neighbour_ne (built : g.Built) {seen : Nat × Weight}
    (hmem : seen ∈ g.neighbours position) : seen.1 ≠ position := by
  obtain ⟨link, hlink, hends⟩ := joined_of_neighbour hmem
  have hlt := built.simple.ordered link hlink
  omega

end SharingGraph

namespace Method

variable {g : SharingGraph} {m : Method} {unseeded : Source} {clustering : Clustering}

theorem weightInto_eq (built : g.Built) (h : m.cluster unseeded g = .ok clustering) {group : Group}
    (hgroup : group ∈ clustering.groups) (position : Nat) :
    g.weightInto position group = g.support (m.labels unseeded g) position group.id := by
  unfold SharingGraph.weightInto SharingGraph.support
  congr 1
  apply List.map_congr_left
  rintro ⟨other, weight⟩ hmem
  obtain ⟨hother, -⟩ := built.neighbour hmem
  have hname : g.vertices[other]? = some g.vertices[other] := Array.getElem?_eq_getElem hother
  have hmember : (g.identity? other).any group.contains = true ↔
      (m.labels unseeded g)[other]? = some group.id := by
    rw [SharingGraph.identity?, hname, Option.any_some]
    exact mem_members_iff built h hgroup hname
  simp only [hmember]

theorem names_of_isolated (built : g.Built) (h : m.cluster unseeded g = .ok clustering)
    {position : Nat} {name : Identity} (hname : g.vertices[position]? = some name)
    (hisolated : g.degree position = 0) {own : Group} (hown : own ∈ clustering.groups)
    (hmem : name ∈ own.members) : own.names = [name] := by
  obtain ⟨hinside, -⟩ := Array.getElem?_eq_some_iff.mp hname
  refine Group.names_eq_singleton fun other => ⟨fun hother => ?_, fun heq => heq ▸ hmem⟩
  obtain ⟨place, hplace, -⟩ := (mem_members h hown).mp hother
  -- both stand in the component that the group is called after
  have hconnected : g.Connected position place :=
    (connected_of_mem built h hown hname hmem).2.symm.trans
      (connected_of_mem built h hown hplace hother).2
  obtain rfl := hconnected.eq_of_isolated hinside hisolated
  exact Option.some.inj (hplace.symm.trans hname)

section Converged

variable (built : g.Built) (h : m.cluster unseeded g = .ok clustering)
  (hconverged : clustering.outcome.converged = true)

include built h hconverged

theorem locallyOptimal_labels : g.LocallyOptimal (m.labels unseeded g) :=
  (built.locallyOptimal_iff (m.size_labels_run unseeded g)).mpr (settled_labels h hconverged)

theorem exists_fellow {position : Nat} {name : Identity}
    (hname : g.vertices[position]? = some name) (hdegree : g.degree position ≠ 0) {own : Group}
    (hown : own ∈ clustering.groups) (hmem : name ∈ own.members) :
    ∃ other weight, (other, weight) ∈ g.neighbours position ∧
      (m.labels unseeded g)[other]? = some own.id := by
  obtain ⟨hinside, -⟩ := Array.getElem?_eq_some_iff.mp hname
  obtain ⟨label, hlabel, ⟨⟨other, weight⟩, hneighbour, hcarried⟩, -⟩ :=
    locallyOptimal_labels built h hconverged position hinside
      (mt SharingGraph.degree_eq_zero.mpr hdegree)
  obtain rfl := Option.some.inj (hlabel.symm.trans ((mem_members_iff built h hown hname).mp hmem))
  exact ⟨other, weight, hneighbour, hcarried⟩

/-- Around a vertex with neighbours its own group has some weight, and no group has more. -/
theorem own_group_heaviest {position : Nat} {name : Identity}
    (hname : g.vertices[position]? = some name) (hdegree : g.degree position ≠ 0) {own : Group}
    (hown : own ∈ clustering.groups) (hmem : name ∈ own.members) :
    1 ≤ g.weightInto position own ∧ ∀ other ∈ clustering.groups,
      g.weightInto position other ≤ g.weightInto position own := by
  have hlabel := (mem_members_iff built h hown hname).mp hmem
  obtain ⟨other, weight, hneighbour, hcarried⟩ :=
    exists_fellow built h hconverged hname hdegree hown hmem
  simp only [weightInto_eq built h hown]
  constructor
  · exact Nat.le_trans (built.neighbour hneighbour).2
      (SharingGraph.weight_le_support hneighbour hcarried)
  · intro group hgroup
    rw [weightInto_eq built h hgroup, ← SharingGraph.count_ballot_eq,
      ← SharingGraph.count_ballot_eq]
    exact settled_labels h hconverged position _ hlabel _

theorem two_le_size {position : Nat} {name : Identity}
    (hname : g.vertices[position]? = some name) (hdegree : g.degree position ≠ 0) {own : Group}
    (hown : own ∈ clustering.groups) (hmem : name ∈ own.members) : 2 ≤ own.size := by
  obtain ⟨other, weight, hneighbour, hcarried⟩ :=
    exists_fellow built h hconverged hname hdegree hown hmem
  have hother := Array.getElem?_eq_getElem (built.neighbour hneighbour).1
  apply Group.two_le_size hmem ((mem_members_iff built h hown hother).mpr hcarried)
  intro hsame
  exact built.neighbour_ne hneighbour (built.position_unique hother (hsame ▸ hname))

theorem isolated_iff {position : Nat} {name : Identity}
    (hname : g.vertices[position]? = some name) :
    g.degree position = 0 ↔ ∃ group ∈ clustering.groups, group.names = [name] := by
  constructor
  · intro hisolated
    obtain ⟨own, hown, hmem⟩ := exists_group h (Array.mem_of_getElem? hname)
    exact ⟨own, hown, names_of_isolated built h hname hisolated hown hmem⟩
  · rintro ⟨group, hgroup, hnames⟩
    have hmem : name ∈ group.members := by simp [← Group.mem_names, hnames]
    by_contra hdegree
    have hsize := two_le_size built h hconverged hname hdegree hgroup hmem
    rw [← Group.length_names, hnames] at hsize
    exact Nat.not_succ_le_self 1 hsize

theorem size_cases {group : Group} (hgroup : group ∈ clustering.groups) :
    2 ≤ group.size ∨ ∃ position name, g.vertices[position]? = some name ∧
      g.degree position = 0 ∧ group.names = [name] := by
  obtain ⟨name, hmem⟩ := exists_member h hgroup
  obtain ⟨position, hname, -⟩ := (mem_members h hgroup).mp hmem
  by_cases hdegree : g.degree position = 0
  · exact .inr ⟨position, name, hname, hdegree,
      names_of_isolated built h hname hdegree hgroup hmem⟩
  · exact .inl (two_le_size built h hconverged hname hdegree hgroup hmem)

end Converged

end Method

/-- In a run that came to an end no group is heavier around a vertex than its own. Vertices without
neighbours are alone in theirs, and every other group has at least two members. -/
theorem converged_groups_shaped {g : SharingGraph} (built : g.Built) {m : Method}
    {unseeded : Source} {clustering : Clustering} (h : m.cluster unseeded g = .ok clustering)
    (hconverged : clustering.outcome.converged = true) :
    (∀ position name, g.vertices[position]? = some name → ∃ own ∈ clustering.groups,
      name ∈ own.members ∧ (∀ other ∈ clustering.groups, other ≠ own → name ∉ other.members) ∧
        (1 ≤ g.degree position → 1 ≤ g.weightInto position own ∧
          ∀ other ∈ clustering.groups, other ≠ own →
            g.weightInto position other ≤ g.weightInto position own)) ∧
    (∀ position name, g.vertices[position]? = some name →
      (g.degree position = 0 ↔ ∃ group ∈ clustering.groups, group.names = [name])) ∧
    ∀ group ∈ clustering.groups, 2 ≤ group.size ∨ ∃ position name,
      g.vertices[position]? = some name ∧ g.degree position = 0 ∧ group.names = [name] := by
  refine ⟨fun position name hname => ?_,
    fun _ _ => Method.isolated_iff built h hconverged,
    fun _ => Method.size_cases built h hconverged⟩
  obtain ⟨own, hown, hmem⟩ := Method.exists_group h (Array.mem_of_getElem? hname)
  refine ⟨own, hown, hmem, ?_, fun hdegree => ?_⟩
  · intro other hother hne hmem'
    exact hne (Method.group_unique built h hother hown hmem' hmem)
  · obtain ⟨hweight, hmost⟩ := Method.own_group_heaviest built h hconverged hname
      (Nat.ne_of_gt hdegree) hown hmem
    exact ⟨hweight, fun other hother _ => hmost other hother⟩

theorem converged_groups_shaped_apart :
    let g : SharingGraph := { vertices := #["a", "b", "c"], links := [⟨0, 1, 2⟩] }
    g.Built ∧ ∀ unseeded, ∃ clustering,
      (⟨3, none, false⟩ : Method).cluster unseeded g = .ok clustering ∧
        (∃ own ∈ clustering.groups, "a" ∈ own.members ∧ 1 ≤ g.weightInto 0 own) ∧
        ∃ group ∈ clustering.groups, group.names = ["c"] := by
  intro g
  have hbuilt : g.Built := ⟨_, .vertex (.link .empty "a" "b" 2) "c", rfl⟩
  refine ⟨hbuilt, fun unseeded => ?_⟩
  obtain ⟨clustering, hcluster, hconverged⟩ := Method.exists_converged hbuilt.simple
    (rfl : (⟨3, none, false⟩ : Method).statistics = false) (by decide) unseeded
  obtain ⟨hweights, halone, -⟩ := converged_groups_shaped hbuilt hcluster hconverged
  obtain ⟨own, hown, hmem, -, hweight⟩ := hweights 0 "a" rfl
  exact ⟨clustering, hcluster, ⟨own, hown, hmem, (hweight (by decide)).1⟩,
    (halone 2 "c" rfl).mp (by decide)⟩

end Cohort
