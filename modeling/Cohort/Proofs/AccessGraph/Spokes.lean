import Cohort.Proofs.Projection

/-! The edges at a vertex under changes. Counting an access puts a new edge at the end of the lists
of its two ends, and an edge that is used up leaves both lists; all else stays in its order. -/

namespace Cohort.AccessGraph

variable {g : AccessGraph}

theorem Sound.contains_iff_spokes (sound : g.Sound) {vertex : Vertex} :
    g.contains vertex ↔ g.spokes vertex ≠ [] := by
  rw [sound.contains_iff_vertexAt]
  rcases sound.spokes_cases vertex with ⟨key, hub, hhub, rfl, hspokes⟩ | ⟨habsent, hspokes⟩
  · rw [hspokes, ne_eq, Array.toList_eq_nil_iff]
    exact iff_of_true ⟨key, vertexAt_of_get? hhub⟩ (sound.busy hhub)
  · exact iff_of_false (not_exists.mpr habsent) (not_not_intro hspokes)

theorem degree_eq (g : AccessGraph) (vertex : Vertex) :
    g.degree vertex = (g.spokes vertex).length := by
  unfold degree spokes
  cases g.hub? vertex with
  | none => rfl
  | some hub => exact Array.length_toList.symm

section Increment

theorem Placed.spokes_ensure (placed : g.Placed) (new vertex : Vertex) :
    (g.ensure new).2.spokes vertex = g.spokes vertex := by
  rcases (placed.ensure new).spokes_cases vertex with ⟨key, hub, hhub, rfl, hspokes⟩ |
    ⟨habsent, hspokes⟩
  · rw [hspokes]
    rw [placed.get?_ensure] at hhub
    split at hhub
    next hnew =>
      cases hhub
      refine (placed.spokes_of_absent fun other hother => ?_).symm
      rw [← placed.places, hnew.2] at hother
      cases hother
    next => exact (placed.spokes_of_get? hhub).symm
  · rw [hspokes]
    refine (placed.spokes_of_absent fun key hkey => ?_).symm
    exact habsent key (placed.vertexAt_ensure new hkey)

theorem Linked.spokes_settle (linked : g.Linked) (name : Identity) (object : ObjectId)
    (vertex : Vertex) : (g.settle name object).spokes vertex = g.spokes vertex :=
  ((linked.ensure _).spokes_ensure _ vertex).trans (linked.spokes_ensure _ vertex)

theorem Linked.spokes_connect (linked : g.Linked) {left right : VertexKey} {name : Identity}
    {object : ObjectId} (hleft : g.vertexAt left = some (.identity name))
    (hright : g.vertexAt right = some (.object object)) (hnew : g.index[(left, right)]? = none)
    (vertex : Vertex) : (g.connect left right).2.spokes vertex =
      if vertex = .identity name ∨ vertex = .object object then
        g.spokes vertex ++ [(g.connect left right).1]
      else g.spokes vertex := by
  have hne : left ≠ right := by
    rintro rfl
    simp [hleft] at hright
  have hlinked := linked.connect hleft hright hnew
  rcases linked.spokes_cases vertex with ⟨key, hub, hhub, rfl, hspokes⟩ | ⟨habsent, hspokes⟩
  · -- the vertex is an end of the new edge when its key is
    have hends : key = left ∨ key = right ↔
        hub.vertex = .identity name ∨ hub.vertex = .object object := by
      rw [← linked.vertexAt_iff hleft, ← linked.vertexAt_iff hright, vertexAt_of_get? hhub,
        Option.some.injEq, Option.some.injEq]
    have hget := get?_connect (g := g) hne key
    rw [hhub, Option.map_some] at hget
    simp only [hspokes, ← hends]
    split at hget
    next hend =>
      rw [if_pos hend]
      exact (hlinked.spokes_of_get? hget).trans Array.toList_push
    next hend =>
      rw [if_neg hend]
      exact hlinked.spokes_of_get? hget
  · have hother : ¬ (vertex = .identity name ∨ vertex = .object object) := by
      rintro (rfl | rfl)
      · exact habsent left hleft
      · exact habsent right hright
    rw [if_neg hother, hspokes]
    refine hlinked.spokes_of_absent fun key => ?_
    rw [vertexAt_connect hne]
    exact habsent key

/-- An access to a new pair is listed last at both of its ends. -/
theorem Linked.spokes_increment (linked : g.Linked) (name : Identity) (object : ObjectId)
    (vertex : Vertex) : (g.increment name object).2.spokes vertex =
      if g.ends? (g.increment name object).1 = none ∧
          (vertex = .identity name ∨ vertex = .object object) then
        g.spokes vertex ++ [(g.increment name object).1]
      else g.spokes vertex := by
  rcases linked.increment_cases name object with ⟨key, -, hends, heq⟩ | ⟨hnew, heq⟩
  · rw [heq]
    simp only [hends, reduceCtorEq, false_and, if_false]
    exact linked.spokes_settle name object vertex
  · obtain ⟨hleft, hright⟩ := linked.vertexAt_sidesOf name object
    have hlinked := linked.settle name object
    have hsettled : (g.settle name object).index[g.sidesOf name object]? = none := by
      simpa [AccessGraph.settle] using hnew
    have hfresh : g.ends? ((g.settle name object).connect (g.sidesOf name object).1
        (g.sidesOf name object).2).1 = none := by
      rw [← linked.ends?_settle name object, hlinked.ends?_eq_none, weightOf_eq_none]
      exact hlinked.get?_connect_fst _ _
    rw [heq, hlinked.spokes_connect hleft hright hsettled, linked.spokes_settle]
    simp only [hfresh, true_and]

end Increment

section Decay

theorem vertexAt_of_cut {key : EdgeKey} {edge : AccessEdge} {place : VertexKey} {vertex : Vertex}
    (h : (g.cut key edge).vertexAt place = some vertex) : g.vertexAt place = some vertex := by
  have hfirst := vertexAt_of_detach h
  have hsecond := vertexAt_of_detach hfirst
  exact hsecond

theorem Sound.spokes_cut (sound : g.Sound) {key : EdgeKey} {edge : AccessEdge}
    (h : g.edges.get? key = some edge) (vertex : Vertex) :
    (g.cut key edge).spokes vertex = (g.spokes vertex).filter (· ≠ key) := by
  have hplaced := (sound.cut h).toPlaced
  rcases sound.spokes_cases vertex with ⟨place, hub, hhub, rfl, hspokes⟩ | ⟨habsent, hspokes⟩
  · have hget := sound.get?_cut h place
    rw [hhub, Option.bind_some] at hget
    rw [hspokes, ← Array.toList_filter]
    split at hget
    next =>
      cases hrest : hub.without key with
      | some rest =>
        rw [hrest] at hget
        obtain ⟨rfl, -⟩ := without_eq_some hrest
        exact hplaced.spokes_of_get? hget
      | none =>
        have hempty : hub.edges.filter (· ≠ key) = #[] := by simpa [Hub.without] using hrest
        rw [hempty]
        refine hplaced.spokes_of_absent fun other hother => ?_
        obtain rfl := sound.key_unique (vertexAt_of_cut hother) (vertexAt_of_get? hhub)
        simp [vertexAt, hget, hrest] at hother
    next hend =>
      have hmissing : key ∉ hub.edges := by
        rw [sound.incident hhub]
        rintro ⟨other, hother, hside⟩
        rw [h] at hother
        cases hother
        exact hend (hside.imp Eq.symm Eq.symm)
      rw [hplaced.spokes_of_get? hget, Array.toList_filter, List.filter_eq_self.mpr]
      intro e he
      simpa using fun heq : e = key => hmissing (heq ▸ Array.mem_toList_iff.mp he)
  · rw [hspokes, List.filter_nil]
    exact hplaced.spokes_of_absent fun place hplace => habsent place (vertexAt_of_cut hplace)

/-- Subtracting from an edge changes no list as long as there is something left of it. -/
theorem Sound.spokes_decay (sound : g.Sound) (key : EdgeKey) (amount : Nat) (vertex : Vertex) :
    (g.decay key amount).2.spokes vertex =
      if (g.decay key amount).2.weightOf key = none then (g.spokes vertex).filter (· ≠ key)
      else g.spokes vertex := by
  rcases decay_cases key amount with ⟨hnone, heq⟩ | ⟨weight, hsome, hless, heq⟩ |
    ⟨edge, endpoints, hget, -, heq⟩
  · rw [heq, if_pos hnone]
    refine (List.filter_eq_self.mpr fun e he => ?_).symm
    obtain ⟨edge, hedge, -⟩ := sound.mem_spokes.mp he
    rw [weightOf_eq_none] at hnone
    simp only [ne_eq, decide_eq_true_eq]
    rintro rfl
    cases hnone.symm.trans hedge
  · have hleft := weightOf_decay (g := g) key amount key
    rw [if_pos rfl, hsome, Option.bind_some, if_pos hless] at hleft
    rw [hleft, if_neg (Option.some_ne_none _), heq]
    rfl
  · have hgone : (g.cut key edge).weightOf key = none := by
      rw [weightOf_eq_none, get?_edges_cut, if_pos rfl]
    rw [heq, if_pos hgone]
    exact sound.spokes_cut hget vertex

theorem detach_fst {vertex : VertexKey} {edge : EdgeKey} {hub : Hub}
    (h : g.hubs.get? vertex = some hub) :
    (g.detach vertex edge).1 = if hub.without edge = none then 1 else 0 := by
  split
  next hlast => rw [detach_of_last h hlast]
  next hrest =>
    rw [detach_of_rest]
    intro other hother
    cases h.symm.trans hother
    exact hrest

theorem Sound.contains_cut (sound : g.Sound) {key : EdgeKey} {edge : AccessEdge}
    (h : g.edges.get? key = some edge) {place : VertexKey} {hub : Hub}
    (hhub : g.hubs.get? place = some hub) (hend : place = edge.identity ∨ place = edge.object) :
    (g.cut key edge).contains hub.vertex ↔ hub.without key ≠ none := by
  have hget := sound.get?_cut h place
  rw [if_pos hend, hhub, Option.bind_some] at hget
  rw [(sound.cut h).contains_iff_vertexAt]
  constructor
  · rintro ⟨other, hother⟩ hnone
    obtain rfl := sound.key_unique (vertexAt_of_cut hother) (vertexAt_of_get? hhub)
    simp [vertexAt, hget, hnone] at hother
  · intro hkept
    obtain ⟨rest, hrest⟩ := Option.ne_none_iff_exists'.mp hkept
    refine ⟨place, ?_⟩
    rw [vertexAt, hget, hrest, Option.map_some, (without_eq_some hrest).1]

theorem decay_of_le {key : EdgeKey} {edge : AccessEdge} (h : g.edges.get? key = some edge)
    {amount : Nat} (hle : edge.weight ≤ amount) :
    ∃ rest : AccessGraph, rest.hubs = g.hubs ∧
      g.decay key amount = (.removed ((rest.detach edge.identity key).1 +
        ((rest.detach edge.identity key).2.detach edge.object key).1), g.cut key edge) := by
  refine ⟨{ g with
    edges := g.edges.remove key
    index := g.index.erase (edge.identity, edge.object) }, rfl, ?_⟩
  simp only [decay, h, Nat.not_lt.mpr hle, if_false]
  rfl

theorem Sound.decay_fst_of_le (sound : g.Sound) {key : EdgeKey} {name : Identity}
    {object : ObjectId} (h : g.ends? key = some (name, object)) {weight amount : Nat}
    (hweight : g.weightOf key = some weight) (hle : weight ≤ amount) :
    (g.decay key amount).1 =
      .removed ((if (g.decay key amount).2.contains (.identity name) then 0 else 1) +
        if (g.decay key amount).2.contains (.object object) then 0 else 1) := by
  obtain ⟨edge, hedge, hname, hobject⟩ := ends?_eq_some.mp h
  obtain ⟨left, hleft, hl⟩ := vertexAt_eq_some.mp hname
  obtain ⟨right, hright, hr⟩ := vertexAt_eq_some.mp hobject
  have hused : edge.weight ≤ amount := by
    rw [weightOf, hedge, Option.map_some, Option.some.injEq] at hweight
    exact hweight ▸ hle
  have hne : edge.object ≠ edge.identity := by
    intro heq
    simp [heq, hname] at hobject
  have hfirst := sound.contains_cut hedge hleft (.inl rfl)
  have hsecond := sound.contains_cut hedge hright (.inr rfl)
  obtain ⟨rest, hrest, hdecay⟩ := decay_of_le hedge hused
  rw [← hrest] at hleft hright
  have hright' : (rest.detach edge.identity key).2.hubs.get? edge.object = some right := by
    rw [get?_detach, if_neg hne, hright]
  rw [hl] at hfirst
  rw [hr] at hsecond
  simp only [hdecay, detach_fst hleft, detach_fst hright', hfirst, hsecond, ne_eq, ite_not]

end Decay

end Cohort.AccessGraph
