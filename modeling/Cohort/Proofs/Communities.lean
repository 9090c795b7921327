import Cohort.Proofs.Groups
import Cohort.Proofs.Projection
import Cohort.Proofs.Workload

/-! Communities in the graph of shared use. While identities keep to the pools of their communities,
no edge joins two communities, and when they use their pools evenly, every community is a clique of
equal weights. -/

namespace Cohort

open AccessGraph (use common)

namespace Workload

/-- A projected graph in which identities use objects of their own community's pool only. -/
structure Apart (w : Workload) (g : AccessGraph) (shared : SharingGraph) : Prop where
  sound : g.Sound
  project : g.project = .ok shared
  own : ∀ name object, 0 < g.use name object →
    ∃ community < w.communities, ∃ number < w.identities, ∃ place < w.objects,
      name = identity community number ∧ object = w.object community place

/-- Identities that also use every object of their pool, as often as they have accesses. -/
structure Whole (w : Workload) (g : AccessGraph) (shared : SharingGraph) : Prop
    extends Apart w g shared where
  objects : 0 < w.objects
  accesses : 0 < w.accesses
  even : ∀ community < w.communities, ∀ number < w.identities, ∀ place < w.objects,
    g.use (identity community number) (w.object community place) = w.accesses

def pool (w : Workload) (community : Nat) : List ObjectId :=
  (List.range w.objects).map (w.object community)

variable {w : Workload} {g : AccessGraph} {shared : SharingGraph}

theorem nodup_pool (w : Workload) (community : Nat) : (w.pool community).Nodup := by
  refine List.Nodup.map_on ?_ List.nodup_range
  intro place hplace place' hplace' heq
  exact (object_inj (List.mem_range.mp hplace) (List.mem_range.mp hplace') heq).2

theorem communityOf?_identity {community number : Nat} (hcommunity : community < w.communities)
    (hnumber : number < w.identities) :
    w.communityOf? (identity community number) = some community :=
  communityOf?_eq_some.mpr ⟨hcommunity, mem_members.mpr ⟨number, hnumber, rfl⟩⟩

theorem Apart.mem_vertices_iff (apart : w.Apart g shared) {name : Identity} :
    name ∈ shared.vertices ↔ ∃ object, 0 < g.use name object := by
  obtain ⟨-, hvertices, -⟩ := apart.sound.project_eq_ok apart.project
  simp only [hvertices, apart.sound.contains_iff, apart.sound.use_pos]
  constructor
  · rintro ⟨other, object, weight, hweight, hname | hname⟩
    · cases hname
      exact ⟨object, weight, hweight⟩
    · cases hname
  · rintro ⟨object, weight, hweight⟩
    exact ⟨name, object, weight, hweight, .inl rfl⟩

section Apart

variable (apart : w.Apart g shared)

include apart

theorem Apart.identity_of_mem {name : Identity} (h : name ∈ shared.vertices) :
    ∃ community < w.communities, ∃ number < w.identities, name = identity community number := by
  obtain ⟨object, hobject⟩ := apart.mem_vertices_iff.mp h
  obtain ⟨community, hcommunity, number, hnumber, -, -, hname, -⟩ := apart.own name object hobject
  exact ⟨community, hcommunity, number, hnumber, hname⟩

theorem Apart.identity_at {position : Nat} (h : position < shared.vertexCount) :
    ∃ community < w.communities, ∃ number < w.identities,
      shared.vertices[position]? = some (identity community number) ∧
        shared.classAt w.communityOf? position = some (some community) := by
  have hname := Array.getElem?_eq_getElem h
  obtain ⟨community, hcommunity, number, hnumber, heq⟩ :=
    apart.identity_of_mem (Array.mem_of_getElem? hname)
  rw [heq] at hname
  refine ⟨community, hcommunity, number, hnumber, hname, ?_⟩
  rw [SharingGraph.classAt, hname, Option.map_some, communityOf?_identity hcommunity hnumber]

theorem Apart.divided : ∀ link ∈ shared.links,
    shared.classAt w.communityOf? link.left = shared.classAt w.communityOf? link.right := by
  intro link hlink
  obtain ⟨built, -, hlinks⟩ := apart.sound.project_eq_ok apart.project
  have hlt := built.simple.ordered link hlink
  have hinside := built.simple.inside link hlink
  obtain ⟨community, -, number, -, hleft, hclass⟩ :=
    apart.identity_at (Nat.lt_trans hlt hinside)
  obtain ⟨community', -, number', -, hright, hclass'⟩ := apart.identity_at hinside
  obtain ⟨first, second, hfirst, hsecond, -, hweight, hpositive⟩ := (hlinks link).mp hlink
  obtain ⟨object, huse, huse'⟩ := apart.sound.common_pos.mp (hweight ▸ hpositive)
  obtain ⟨c, -, _, -, place, hplace, rfl, hobject⟩ := apart.own first object huse
  obtain ⟨c', -, _, -, place', hplace', rfl, hobject'⟩ := apart.own second object huse'
  obtain ⟨rfl, -⟩ := object_inj hplace hplace' (hobject.symm.trans hobject')
  obtain ⟨rfl, -⟩ := identity_inj (Option.some.inj (hleft.symm.trans hfirst))
  obtain ⟨rfl, -⟩ := identity_inj (Option.some.inj (hright.symm.trans hsecond))
  rw [hclass, hclass']

end Apart

section Whole

variable (whole : w.Whole g shared)

include whole

theorem Whole.common_eq {community number number' : Nat} (hcommunity : community < w.communities)
    (hnumber : number < w.identities) (hnumber' : number' < w.identities) :
    g.common (identity community number) (identity community number') =
      w.objects * w.accesses := by
  have huse : ∀ object ∈ w.pool community, min (g.use (identity community number) object)
      (g.use (identity community number') object) = w.accesses := by
    intro object hobject
    obtain ⟨place, hplace, rfl⟩ := List.mem_map.mp hobject
    rw [whole.even _ hcommunity _ hnumber _ (List.mem_range.mp hplace),
      whole.even _ hcommunity _ hnumber' _ (List.mem_range.mp hplace), Nat.min_self]
  have hsubset : w.pool community ⊆ g.objects := by
    intro object hobject
    have hpositive := Nat.lt_of_lt_of_eq whole.accesses (huse object hobject).symm
    exact AccessGraph.mem_objects.mpr
      (whole.sound.contains_of_use (Nat.lt_of_lt_of_le hpositive (Nat.min_le_left ..))).2
  rw [common, ← addUp_map_eq_of_subset (w.nodup_pool community) g.nodup_objects hsubset]
  · rw [List.map_congr_left huse, List.map_const', addUp_replicate, pool, List.length_map,
      List.length_range]
  · intro object _ houtside
    by_contra hzero
    obtain ⟨_, _, _, _, place, hplace, hname, rfl⟩ := whole.own _ object
      (Nat.lt_of_lt_of_le (Nat.pos_of_ne_zero hzero) (Nat.min_le_left ..))
    obtain ⟨rfl, -⟩ := identity_inj hname
    exact houtside (List.mem_map_of_mem (List.mem_range.mpr hplace))

theorem Whole.mem_vertices {name : Identity} : name ∈ shared.vertices ↔
    ∃ community < w.communities, ∃ number < w.identities, name = identity community number := by
  refine ⟨whole.identity_of_mem, ?_⟩
  rintro ⟨community, hcommunity, number, hnumber, rfl⟩
  refine whole.mem_vertices_iff.mpr ⟨w.object community 0, ?_⟩
  rw [whole.even _ hcommunity _ hnumber _ whole.objects]
  exact whole.accesses

theorem Whole.cliques :
    shared.Cliques (shared.classAt w.communityOf?) (w.objects * w.accesses) := by
  obtain ⟨built, -, hlinks⟩ := whole.sound.project_eq_ok whole.project
  refine ⟨built.nodup_links, fun link => ⟨fun hlink => ?_, ?_⟩⟩
  · have hlt := built.simple.ordered link hlink
    have hinside := built.simple.inside link hlink
    have hsame := whole.divided link hlink
    refine ⟨hlt, hinside, hsame, ?_⟩
    obtain ⟨community, hcommunity, number, hnumber, hleft, hclass⟩ :=
      whole.identity_at (Nat.lt_trans hlt hinside)
    obtain ⟨community', -, number', hnumber', hright, hclass'⟩ :=
      whole.identity_at hinside
    rw [hclass, hclass'] at hsame
    cases hsame
    obtain ⟨first, second, hfirst, hsecond, -, hweight, -⟩ := (hlinks link).mp hlink
    obtain rfl := Option.some.inj (hleft.symm.trans hfirst)
    obtain rfl := Option.some.inj (hright.symm.trans hsecond)
    rw [← hweight, whole.common_eq hcommunity hnumber hnumber']
  · rintro ⟨hlt, hinside, hsame, hweight⟩
    obtain ⟨community, hcommunity, number, hnumber, hleft, hclass⟩ :=
      whole.identity_at (Nat.lt_trans hlt hinside)
    obtain ⟨community', -, number', hnumber', hright, hclass'⟩ :=
      whole.identity_at hinside
    rw [hclass, hclass'] at hsame
    cases hsame
    have hless := built.name_lt hlt hleft hright
    have hcommon := whole.common_eq hcommunity hnumber hnumber'
    exact (hlinks link).mpr ⟨_, _, hleft, hright, hless, hcommon.trans hweight.symm,
      hweight ▸ Nat.mul_pos whole.objects whole.accesses⟩

theorem Whole.vertexCount_eq : shared.vertexCount = w.communities * w.identities := by
  obtain ⟨built, -, -⟩ := whole.sound.project_eq_ok whole.project
  have hnodup := built.nodup_vertices
  have hnames : (w.everyone.map fun slot => identity slot.1 slot.2).Nodup := by
    refine List.Nodup.map ?_ (List.nodup_range.product List.nodup_range)
    intro slot slot' heq
    exact Prod.ext (identity_inj heq).1 (identity_inj heq).2
  have hperm : shared.vertices.toList.Perm (w.everyone.map fun slot => identity slot.1 slot.2) := by
    rw [List.perm_ext_iff_of_nodup hnodup hnames]
    intro name
    rw [Array.mem_toList_iff,
      whole.mem_vertices]
    simp only [List.mem_map, mem_everyone, Prod.exists]
    constructor
    · rintro ⟨community, hcommunity, number, hnumber, rfl⟩
      exact ⟨community, number, ⟨hcommunity, hnumber⟩, rfl⟩
    · rintro ⟨community, number, ⟨hcommunity, hnumber⟩, rfl⟩
      exact ⟨community, hcommunity, number, hnumber, rfl⟩
  rw [SharingGraph.vertexCount, ← Array.length_toList, hperm.length_eq, List.length_map,
    everyone_eq, List.length_product, List.length_range, List.length_range]

theorem Whole.names_perm {position community number : Nat} (hcommunity : community < w.communities)
    (hnumber : number < w.identities)
    (hname : shared.vertices[position]? = some (identity community number)) :
    ((position :: shared.fellows (shared.classAt w.communityOf?) position).filterMap
      (shared.vertices[·]?)).Perm (w.members community) := by
  obtain ⟨built, -, -⟩ := whole.sound.project_eq_ok whole.project
  have hclass : shared.classAt w.communityOf? position = some (some community) := by
    rw [SharingGraph.classAt, hname, Option.map_some, communityOf?_identity hcommunity hnumber]
  have hnodup : (position :: shared.fellows (shared.classAt w.communityOf?) position).Nodup :=
    List.nodup_cons.mpr ⟨by simp [SharingGraph.mem_fellows], SharingGraph.nodup_fellows position⟩
  have hnames := hnodup.filterMap (f := (shared.vertices[·]?))
    fun _ _ _ hi hj => built.position_unique hi hj
  rw [List.perm_ext_iff_of_nodup hnames (w.nodup_members community)]
  intro name
  simp only [List.mem_filterMap, List.mem_cons, SharingGraph.mem_fellows, mem_members]
  constructor
  · rintro ⟨other, rfl | ⟨hinside, -, hsame⟩, hother⟩
    · exact ⟨number, hnumber, Option.some.inj (hother.symm.trans hname)⟩
    · obtain ⟨community', -, number', hnumber', hname', hclass'⟩ := whole.identity_at hinside
      rw [hclass, hclass'] at hsame
      cases hsame
      exact ⟨number', hnumber', Option.some.inj (hother.symm.trans hname')⟩
  · rintro ⟨number', hnumber', rfl⟩
    have hvertex : identity community number' ∈ shared.vertices :=
      whole.mem_vertices.mpr ⟨community, hcommunity, number', hnumber', rfl⟩
    obtain ⟨other, hother⟩ := Array.mem_iff_getElem?.mp hvertex
    obtain ⟨hinside, -⟩ := Array.getElem?_eq_some_iff.mp hother
    refine ⟨other, ?_, hother⟩
    by_cases heq : other = position
    · exact .inl heq
    · refine .inr ⟨hinside, heq, ?_⟩
      rw [hclass, SharingGraph.classAt, hother, Option.map_some,
        communityOf?_identity hcommunity hnumber']

theorem Whole.length_fellows {position : Nat} (h : position < shared.vertexCount) :
    (shared.fellows (shared.classAt w.communityOf?) position).length = w.identities - 1 := by
  obtain ⟨community, hcommunity, number, hnumber, hname, -⟩ := whole.identity_at h
  have hperm := whole.names_perm hcommunity hnumber hname
  have hlength : ((position :: shared.fellows (shared.classAt w.communityOf?) position).filterMap
      (shared.vertices[·]?)).length =
        (position :: shared.fellows (shared.classAt w.communityOf?) position).length := by
    rw [List.filterMap_length_eq_length]
    intro other hother
    have hinside : other < shared.vertices.size := by
      rcases List.mem_cons.mp hother with rfl | hother
      · exact h
      · exact (SharingGraph.mem_fellows.mp hother).1
    rw [Array.getElem?_eq_getElem hinside]
    rfl
  rw [hperm.length_eq, members, List.length_map, List.length_range, List.length_cons] at hlength
  exact (Nat.sub_eq_of_eq_add hlength).symm

end Whole

end Workload

end Cohort
