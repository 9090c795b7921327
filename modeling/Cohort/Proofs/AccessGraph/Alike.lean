import Cohort.Proofs.AccessGraph.Register
import Cohort.Proofs.Projection.Walk

/-! Graphs that weigh every pair alike. They may hold the pairs under other keys, in other slots and
on lists in another order, and still answer every question about names, objects and weights in the
same way. -/

namespace Cohort

namespace AccessGraph

variable {g h : AccessGraph}

def pairs (g : AccessGraph) : List (Identity × ObjectId) :=
  g.edges.keys.filterMap g.ends?

section Pairs

theorem mem_keys_of_ends? {key : EdgeKey} {pair : Identity × ObjectId}
    (hends : g.ends? key = some pair) : key ∈ g.edges.keys := by
  obtain ⟨edge, hedge, -⟩ := ends?_eq_some.mp hends
  exact Arena.mem_keys.mpr ⟨edge, hedge⟩

theorem mem_pairs {pair : Identity × ObjectId} :
    pair ∈ g.pairs ↔ ∃ key, g.ends? key = some pair := by
  rw [pairs, List.mem_filterMap]
  exact exists_congr fun key => and_iff_right_of_imp mem_keys_of_ends?

theorem Linked.mem_pairs_iff (linked : g.Linked) {name : Identity} {object : ObjectId} :
    (name, object) ∈ g.pairs ↔ g.edgeWeight name object ≠ none := by
  rw [mem_pairs, ne_eq, linked.edgeWeight_eq_none, not_forall_not]

theorem Linked.nodup_pairs (linked : g.Linked) : g.pairs.Nodup :=
  List.Nodup.filterMap (fun _ _ _ hl hr => linked.ends?_unique hl hr) g.edges.nodup_keys

theorem Linked.length_pairs (linked : g.Linked) : g.pairs.length = g.edgeCount := by
  rw [edgeCount, linked.edges.size_eq, ← Arena.length_keys, pairs,
    List.length_filterMap_eq_countP, List.countP_eq_length]
  intro key hmem
  obtain ⟨edge, hedge⟩ := Arena.mem_keys.mp hmem
  obtain ⟨pair, hends⟩ := linked.ends?_isSome hedge
  rw [hends, Option.isSome_some]

end Pairs

section EdgeList

theorem Linked.edgeList_eq (linked : g.Linked) :
    g.edgeList = g.pairs.map fun pair => (pair.1, pair.2, g.use pair.1 pair.2) := by
  rw [edgeList, Arena.values_eq, List.filterMap_filterMap, pairs, List.map_filterMap]
  refine List.filterMap_congr fun key hmem => ?_
  obtain ⟨edge, hedge⟩ := Arena.mem_keys.mp hmem
  obtain ⟨⟨name, object⟩, hends⟩ := linked.ends?_isSome hedge
  obtain ⟨other, hother, hname, hobject⟩ := ends?_eq_some.mp hends
  cases hedge.symm.trans hother
  have hweight : g.edgeWeight name object = some edge.weight :=
    linked.edgeWeight_eq_some.mpr ⟨key, hends, weightOf_eq_some.mpr ⟨edge, hedge, rfl⟩⟩
  simp [hedge, hends, nameOf_eq_some.mpr hname, objectOf_eq_some.mpr hobject,
    use_of_edgeWeight hweight]

theorem Linked.mem_edgeList (linked : g.Linked) {name : Identity} {object : ObjectId}
    {weight : Weight} :
    (name, object, weight) ∈ g.edgeList ↔ g.edgeWeight name object = some weight := by
  rw [linked.edgeList_eq, List.mem_map]
  constructor
  · rintro ⟨⟨_, _⟩, hmem, heq⟩
    obtain ⟨rfl, rfl, rfl⟩ := heq
    obtain ⟨found, hfound⟩ := Option.ne_none_iff_exists'.mp (linked.mem_pairs_iff.mp hmem)
    rw [use_of_edgeWeight hfound, hfound]
  · intro hweight
    have hmem : (name, object) ∈ g.pairs := linked.mem_pairs_iff.mpr (by simp [hweight])
    exact ⟨_, hmem, by rw [use_of_edgeWeight hweight]⟩

theorem Linked.getElem?_weights (linked : g.Linked) (name : Identity) (object : ObjectId) :
    g.weights[(name, object)]? = g.edgeWeight name object := by
  ext weight
  rw [weights, getElem?_ofList_eq_some, List.mem_map, ← linked.mem_edgeList]
  · simp
  · have hkeys : g.edgeList.map (fun edge => (edge.1, edge.2.1)) = g.pairs := by
      simp [linked.edgeList_eq, Function.comp_def]
    rw [List.map_map]
    exact hkeys ▸ linked.nodup_pairs

end EdgeList

theorem Placed.vertexCount_eq (placed : g.Placed) :
    g.vertexCount = g.identityCount + g.objectCount := by
  have hlength := placed.vertexList_perm.length_eq
  rw [vertexList, List.length_map, Arena.length_values, ← placed.hubs.size_eq, List.length_append,
    List.length_map, List.length_map] at hlength
  exact hlength

def Alike (g h : AccessGraph) : Prop :=
  ∀ name object, g.edgeWeight name object = h.edgeWeight name object

theorem Alike.sameEdges (alike : g.Alike h) : g.SameEdges h :=
  fun name object => congrArg Option.isSome (alike name object)

theorem Alike.use (alike : g.Alike h) : g.use = h.use := by
  ext name object
  rw [AccessGraph.use, alike, AccessGraph.use]

/-- Graphs with the same weights for the same pairs, and as many vertices and edges. -/
structure Matching (g h : AccessGraph) : Prop where
  weights : g.weights = h.weights
  identityCount : g.identityCount = h.identityCount
  objectCount : g.objectCount = h.objectCount
  vertexCount : g.vertexCount = h.vertexCount
  edgeCount : g.edgeCount = h.edgeCount

section Alike

variable (alike : g.Alike h) (sound : g.Sound) (sound' : h.Sound)

include alike sound sound'

theorem Alike.identities : g.identities = h.identities :=
  alike.sameEdges.identities sound sound'

theorem Alike.objects : g.objects = h.objects :=
  alike.sameEdges.objects sound sound'

theorem Alike.pairs_perm : g.pairs.Perm h.pairs := by
  rw [List.perm_ext_iff_of_nodup sound.nodup_pairs sound'.nodup_pairs]
  rintro ⟨name, object⟩
  rw [sound.mem_pairs_iff, sound'.mem_pairs_iff, alike]

theorem Alike.edgeCount : g.edgeCount = h.edgeCount := by
  rw [← sound.length_pairs, (alike.pairs_perm sound sound').length_eq, sound'.length_pairs]

theorem Alike.vertexCount : g.vertexCount = h.vertexCount := by
  rw [sound.vertexCount_eq, sound'.vertexCount_eq, identityCount, objectCount,
    alike.identities sound sound', alike.objects sound sound', identityCount, objectCount]

theorem Alike.objectUse : g.objectUse = h.objectUse := by
  rw [AccessGraph.objectUse, alike.objects sound sound', AccessGraph.objectUse]
  refine List.map_congr_left fun object _ => congrArg (object, Std.ExtTreeMap.toList ·) ?_
  ext name weight
  rw [getElem?_ofList_eq_some (sound.nodup_objectEdges object),
    getElem?_ofList_eq_some (sound'.nodup_objectEdges object), sound.mem_objectEdges,
    sound'.mem_objectEdges, alike]

theorem Alike.fold (orders : Orders g) (orders' : Orders h) : g.fold orders = h.fold orders' :=
  sound.fold_congr sound' alike orders orders'

theorem Alike.project : g.project = h.project := by
  rw [← sound.fold_eq_project default, alike.fold sound sound' default default,
    sound'.fold_eq_project]

theorem Alike.matching : g.Matching h where
  weights := by
    apply Std.ExtTreeMap.ext_getElem?
    rintro ⟨name, object⟩
    rw [sound.getElem?_weights, sound'.getElem?_weights, alike]
  identityCount := congrArg List.length (alike.identities sound sound')
  objectCount := congrArg List.length (alike.objects sound sound')
  vertexCount := alike.vertexCount sound sound'
  edgeCount := alike.edgeCount sound sound'

end Alike

end AccessGraph

end Cohort
