import Cohort.AccessGraph
import Cohort.Proofs.Arena
import Mathlib.Data.List.Nodup

/-! The indices, adjacency lists and arenas of an access graph tell the same story. `Sound` says
so, counting an access and subtracting from an edge keep it, and in a sound graph both touch the
weight under one key and no other. -/

namespace Cohort

def Hub.without (hub : Hub) (edge : EdgeKey) : Option Hub :=
  let edges := hub.edges.filter (· ≠ edge)
  if edges = #[] then none else some { hub with edges }

def AccessEdge.sides (edge : AccessEdge) : VertexKey × VertexKey :=
  (edge.identity, edge.object)

namespace AccessGraph

def vertexAt (g : AccessGraph) (key : VertexKey) : Option Vertex :=
  (g.hubs.get? key).map (·.vertex)

/-- Every vertex is kept under one key, which the index of vertices knows. -/
structure Placed (g : AccessGraph) : Prop where
  hubs : g.hubs.Sound
  places : ∀ vertex key, g.places[vertex]? = some key ↔ g.vertexAt key = some vertex

/-- Every edge is indexed by its two ends, an identity and an object, and stands on the lists of
both and on no other list. -/
structure Linked (g : AccessGraph) : Prop extends Placed g where
  edges : g.edges.Sound
  index : ∀ pair key, g.index[pair]? = some key ↔
    (g.edges.get? key).map AccessEdge.sides = some pair
  sides : ∀ {key edge}, g.edges.get? key = some edge →
    (∃ name, g.vertexAt edge.identity = some (.identity name)) ∧
      ∃ object, g.vertexAt edge.object = some (.object object)
  nodup : ∀ {key hub}, g.hubs.get? key = some hub → hub.edges.toList.Nodup
  incident : ∀ {key hub}, g.hubs.get? key = some hub → ∀ e, e ∈ hub.edges ↔
    ∃ edge, g.edges.get? e = some edge ∧ (edge.identity = key ∨ edge.object = key)
  positive : ∀ {key edge}, g.edges.get? key = some edge → 0 < edge.weight

/-- Besides, no vertex is without an edge. -/
structure Sound (g : AccessGraph) : Prop extends Linked g where
  busy : ∀ {key hub}, g.hubs.get? key = some hub → hub.edges ≠ #[]

theorem sound_empty : (∅ : AccessGraph).Sound where
  hubs := Arena.sound_empty
  places vertex key := by
    change (∅ : Table Vertex VertexKey)[vertex]? = some key ↔
      ((∅ : Arena Hub).get? key).map (·.vertex) = some vertex
    simp
  edges := Arena.sound_empty
  index pair key := by
    change (∅ : Table (VertexKey × VertexKey) EdgeKey)[pair]? = some key ↔
      ((∅ : Arena AccessEdge).get? key).map AccessEdge.sides = some pair
    simp
  sides := nofun
  nodup := nofun
  incident := nofun
  positive := nofun
  busy := nofun

theorem vertexAt_of_get? {g : AccessGraph} {key : VertexKey} {hub : Hub}
    (h : g.hubs.get? key = some hub) : g.vertexAt key = some hub.vertex := by
  simp [vertexAt, h]

theorem vertexAt_eq_some {g : AccessGraph} {key : VertexKey} {vertex : Vertex} :
    g.vertexAt key = some vertex ↔ ∃ hub, g.hubs.get? key = some hub ∧ hub.vertex = vertex := by
  simp [vertexAt]

theorem Placed.key_unique {g : AccessGraph} (placed : g.Placed) {vertex : Vertex}
    {left right : VertexKey} (hl : g.vertexAt left = some vertex)
    (hr : g.vertexAt right = some vertex) : left = right := by
  rw [← placed.places] at hl hr
  exact Option.some.inj (hl.symm.trans hr)

theorem Placed.vertexAt_iff {g : AccessGraph} (placed : g.Placed) {vertex : Vertex}
    {key other : VertexKey} (h : g.vertexAt key = some vertex) :
    g.vertexAt other = some vertex ↔ other = key :=
  ⟨fun hother => placed.key_unique hother h, fun heq => heq ▸ h⟩

section Ensure

variable {g : AccessGraph} (vertex : Vertex)

theorem ensure_of_some {key : VertexKey} (h : g.places[vertex]? = some key) :
    g.ensure vertex = (key, g) := by
  simp [ensure, h]

theorem ensure_of_none (h : g.places[vertex]? = none) :
    g.ensure vertex = ((g.hubs.insert ⟨vertex, #[]⟩).1,
      { g with hubs := (g.hubs.insert ⟨vertex, #[]⟩).2
               places := g.places.insert vertex (g.hubs.insert ⟨vertex, #[]⟩).1 }) := by
  simp [ensure, h]

@[simp] theorem edges_ensure : (g.ensure vertex).2.edges = g.edges := by
  cases h : g.places[vertex]? with
  | none => rw [ensure_of_none vertex h]
  | some key => rw [ensure_of_some vertex h]

@[simp] theorem index_ensure : (g.ensure vertex).2.index = g.index := by
  cases h : g.places[vertex]? with
  | none => rw [ensure_of_none vertex h]
  | some key => rw [ensure_of_some vertex h]

theorem Placed.get?_ensure (placed : g.Placed) (key : VertexKey) :
    (g.ensure vertex).2.hubs.get? key =
      if key = (g.ensure vertex).1 ∧ g.places[vertex]? = none then some ⟨vertex, #[]⟩
      else g.hubs.get? key := by
  cases h : g.places[vertex]? with
  | some _ => simp [ensure_of_some vertex h]
  | none => simp [ensure_of_none vertex h, placed.hubs.get?_insert]

theorem Placed.get?_ensure_fst (placed : g.Placed) (h : g.places[vertex]? = none) :
    g.hubs.get? (g.ensure vertex).1 = none := by
  rw [ensure_of_none vertex h]
  exact placed.hubs.get?_insert_fst _

theorem Placed.vertexAt_ensure (placed : g.Placed) {key : VertexKey} {other : Vertex}
    (h : g.vertexAt key = some other) : (g.ensure vertex).2.vertexAt key = some other := by
  unfold vertexAt at h ⊢
  rw [placed.get?_ensure]
  split
  next hnew =>
    rw [hnew.1, placed.get?_ensure_fst vertex hnew.2] at h
    cases h
  next => exact h

theorem Placed.vertexAt_ensure_fst (placed : g.Placed) :
    (g.ensure vertex).2.vertexAt (g.ensure vertex).1 = some vertex := by
  cases h : g.places[vertex]? with
  | none => simp [vertexAt, placed.get?_ensure, h]
  | some key =>
    rw [ensure_of_some vertex h]
    exact (placed.places vertex key).mp h

theorem Placed.ensure (placed : g.Placed) : (g.ensure vertex).2.Placed := by
  cases h : g.places[vertex]? with
  | some _ => rwa [ensure_of_some vertex h]
  | none =>
    have hfirst := placed.vertexAt_ensure_fst vertex
    have hkeep := @Placed.vertexAt_ensure g vertex placed
    have hget := placed.get?_ensure vertex
    rw [ensure_of_none vertex h] at hfirst hkeep hget ⊢
    refine ⟨placed.hubs.insert _, fun other key => ?_⟩
    simp only [Std.ExtTreeMap.getElem?_insert, Std.compare_eq_iff_eq]
    by_cases hv : vertex = other
    · subst hv
      rw [if_pos rfl, Option.some.injEq]
      constructor
      · rintro rfl
        exact hfirst
      · intro hkey
        by_contra hne
        simp only [vertexAt, hget, Ne.symm hne, false_and, if_false] at hkey
        rw [(placed.places vertex key).mpr hkey] at h
        cases h
    · rw [if_neg hv, placed.places]
      refine ⟨hkeep, fun hkey => ?_⟩
      simp only [vertexAt, hget] at hkey ⊢
      split at hkey
      next => exact absurd (Option.some.inj hkey) hv
      next => exact hkey

theorem Linked.ensure (linked : g.Linked) : (g.ensure vertex).2.Linked where
  toPlaced := linked.toPlaced.ensure vertex
  edges := by simpa using linked.edges
  index := by simpa using linked.index
  sides := by
    intro key edge h
    rw [edges_ensure] at h
    obtain ⟨⟨name, hname⟩, ⟨object, hobject⟩⟩ := linked.sides h
    exact ⟨⟨name, linked.vertexAt_ensure vertex hname⟩,
      ⟨object, linked.vertexAt_ensure vertex hobject⟩⟩
  nodup := by
    intro key hub h
    rw [linked.get?_ensure] at h
    split at h
    next =>
      cases h
      exact List.nodup_nil
    next => exact linked.nodup h
  incident := by
    intro key hub h e
    rw [linked.get?_ensure] at h
    rw [edges_ensure]
    split at h
    next hnew =>
      obtain ⟨rfl, hnone⟩ := hnew
      cases h
      have hfresh := linked.get?_ensure_fst vertex hnone
      simp only [Array.not_mem_empty, false_iff]
      -- an edge has its ends in the graph of before, where the new vertex is not
      rintro ⟨edge, hedge, hend⟩
      obtain ⟨⟨name, hname⟩, ⟨object, hobject⟩⟩ := linked.sides hedge
      rcases hend with hend | hend
      · simp [vertexAt, hend, hfresh] at hname
      · simp [vertexAt, hend, hfresh] at hobject
    next => exact linked.incident h e
  positive := by
    intro key edge h
    rw [edges_ensure] at h
    exact linked.positive h

end Ensure

section Connect

variable {g : AccessGraph} {left right : VertexKey}

theorem get?_attach (hubs : Arena Hub) (vertex key : VertexKey) (edge : EdgeKey) :
    (attach hubs vertex edge).get? key =
      if key = vertex then
        (hubs.get? vertex).map fun hub => { hub with edges := hub.edges.push edge }
      else hubs.get? key :=
  Arena.get?_modify vertex key _

theorem get?_connect (hne : left ≠ right) (key : VertexKey) :
    (g.connect left right).2.hubs.get? key =
      if key = left ∨ key = right then
        (g.hubs.get? key).map fun hub =>
          { hub with edges := hub.edges.push (g.connect left right).1 }
      else g.hubs.get? key := by
  change (attach (attach g.hubs left _) right _).get? key = _
  simp only [get?_attach]
  by_cases hl : key = left
  · subst hl
    simp [hne]
    rfl
  · by_cases hr : key = right
    · subst hr
      simp [hl]
      rfl
    · simp [hl, hr]

theorem vertexAt_connect (hne : left ≠ right) (key : VertexKey) :
    (g.connect left right).2.vertexAt key = g.vertexAt key := by
  unfold vertexAt
  rw [get?_connect hne]
  split
  · cases g.hubs.get? key <;> rfl
  · rfl

theorem Linked.get?_edges_connect (linked : g.Linked) (left right : VertexKey) (key : EdgeKey) :
    (g.connect left right).2.edges.get? key =
      if key = (g.connect left right).1 then some ⟨left, right, Weight.initial⟩
      else g.edges.get? key :=
  linked.edges.get?_insert _ key

theorem Linked.get?_connect_fst (linked : g.Linked) (left right : VertexKey) :
    g.edges.get? (g.connect left right).1 = none :=
  linked.edges.get?_insert_fst _

theorem Linked.index_connect (linked : g.Linked) (hnew : g.index[(left, right)]? = none)
    (pair : VertexKey × VertexKey) (key : EdgeKey) :
    (g.connect left right).2.index[pair]? = some key ↔
      ((g.connect left right).2.edges.get? key).map AccessEdge.sides = some pair := by
  have hfresh := linked.get?_connect_fst left right
  change (g.index.insert (left, right) (g.connect left right).1)[pair]? = some key ↔ _
  rw [linked.get?_edges_connect, Std.ExtTreeMap.getElem?_insert]
  simp only [Std.compare_eq_iff_eq]
  by_cases hpair : (left, right) = pair
  · subst hpair
    rw [if_pos rfl, Option.some.injEq]
    constructor
    · rintro rfl
      simp [AccessEdge.sides]
    · intro h
      by_contra hkey
      rw [if_neg (Ne.symm hkey), ← linked.index, hnew] at h
      cases h
  · rw [if_neg hpair, linked.index]
    by_cases hkey : key = (g.connect left right).1
    · simp [hkey, hfresh, AccessEdge.sides, hpair]
    · rw [if_neg hkey]

theorem Linked.nodup_connect (linked : g.Linked) (hne : left ≠ right) {key : VertexKey} {hub : Hub}
    (h : (g.connect left right).2.hubs.get? key = some hub) : hub.edges.toList.Nodup := by
  rw [get?_connect hne] at h
  split at h
  next =>
    obtain ⟨old, hold, rfl⟩ := Option.map_eq_some_iff.mp h
    have habsent : (g.connect left right).1 ∉ old.edges := by
      rw [linked.incident hold]
      simp [linked.get?_connect_fst left right]
    rw [Array.toList_push, ← List.concat_eq_append]
    exact (List.nodup_concat _ _).mpr ⟨by simpa using habsent, linked.nodup hold⟩
  next => exact linked.nodup h

theorem Linked.incident_connect (linked : g.Linked) (hne : left ≠ right) {key : VertexKey}
    {hub : Hub} (h : (g.connect left right).2.hubs.get? key = some hub) (e : EdgeKey) :
    e ∈ hub.edges ↔ ∃ edge, (g.connect left right).2.edges.get? e = some edge ∧
      (edge.identity = key ∨ edge.object = key) := by
  have hfresh := linked.get?_connect_fst left right
  rw [get?_connect hne] at h
  rw [linked.get?_edges_connect]
  by_cases he : e = (g.connect left right).1
  · subst he
    split at h
    next hend =>
      obtain ⟨old, -, rfl⟩ := Option.map_eq_some_iff.mp h
      simpa using hend.imp Eq.symm Eq.symm
    next hend =>
      rw [linked.incident h]
      simp only [hfresh, if_true, Option.some.injEq]
      constructor
      · rintro ⟨edge, hnone, -⟩
        cases hnone
      · rintro ⟨edge, rfl, hside⟩
        exact absurd (hside.imp Eq.symm Eq.symm) hend
  · rw [if_neg he]
    split at h
    next =>
      obtain ⟨old, hold, rfl⟩ := Option.map_eq_some_iff.mp h
      simp only [Array.mem_push, he, or_false]
      exact linked.incident hold e
    next => exact linked.incident h e

theorem Linked.connect (linked : g.Linked) {name : Identity} {object : ObjectId}
    (hleft : g.vertexAt left = some (.identity name))
    (hright : g.vertexAt right = some (.object object))
    (hnew : g.index[(left, right)]? = none) : (g.connect left right).2.Linked := by
  have hne : left ≠ right := by
    rintro rfl
    simp [hleft] at hright
  refine { hubs := (linked.hubs.modify _ _).modify _ _, places := ?_,
           edges := linked.edges.insert _, index := linked.index_connect hnew, sides := ?_,
           nodup := linked.nodup_connect hne, incident := linked.incident_connect hne,
           positive := ?_ }
  · intro vertex key
    rw [vertexAt_connect hne]
    exact linked.places vertex key
  · intro key edge h
    simp only [vertexAt_connect hne]
    rw [linked.get?_edges_connect] at h
    split at h
    next =>
      cases h
      exact ⟨⟨name, hleft⟩, ⟨object, hright⟩⟩
    next => exact linked.sides h
  · intro key edge h
    rw [linked.get?_edges_connect] at h
    split at h
    next =>
      cases h
      exact Nat.one_pos
    next => exact linked.positive h

end Connect

section Weights

variable {g : AccessGraph}

theorem Sound.setWeight (sound : g.Sound) (key : EdgeKey) (f : Weight → Weight)
    (hf : ∀ weight, g.weightOf key = some weight → 0 < f weight) :
    ({ g with edges := g.edges.modify key fun edge =>
        { edge with weight := f edge.weight } } : AccessGraph).Sound := by
  have hedge := fun e => @Arena.get?_modify _ g.edges key e
    fun edge => { edge with weight := f edge.weight }
  refine { toPlaced := ⟨sound.hubs, sound.places⟩, edges := sound.edges.modify _ _, index := ?_,
           sides := ?_, nodup := sound.nodup, incident := ?_, positive := ?_, busy := sound.busy }
  · intro pair e
    rw [sound.index, hedge]
    split
    next h =>
      subst h
      cases g.edges.get? e <;> rfl
    next => rfl
  · intro e edge h
    rw [hedge] at h
    split at h
    next =>
      obtain ⟨old, hold, rfl⟩ := Option.map_eq_some_iff.mp h
      exact @Linked.sides g sound.toLinked key old hold
    next => exact sound.sides h
  · intro vertex hub h e
    rw [sound.incident h]
    simp only [hedge]
    split
    next he =>
      subst he
      simp only [Option.map_eq_some_iff]
      constructor
      · rintro ⟨edge, hold, hside⟩
        exact ⟨_, ⟨edge, hold, rfl⟩, hside⟩
      · rintro ⟨_, ⟨edge, hold, rfl⟩, hside⟩
        exact ⟨edge, hold, hside⟩
    next => rfl
  · intro e edge h
    rw [hedge] at h
    split at h
    next he =>
      obtain ⟨old, hold, rfl⟩ := Option.map_eq_some_iff.mp h
      exact hf old.weight (by simp [weightOf, hold])
    next => exact sound.positive h

end Weights

section Detach

variable {g : AccessGraph} {vertex : VertexKey} {edge : EdgeKey}

@[simp] theorem edges_detach : (g.detach vertex edge).2.edges = g.edges := by
  unfold detach
  dsimp only
  split
  · rfl
  · split <;> rfl

@[simp] theorem index_detach : (g.detach vertex edge).2.index = g.index := by
  unfold detach
  dsimp only
  split
  · rfl
  · split <;> rfl

theorem get?_filtered (key : VertexKey) :
    (g.hubs.modify vertex fun hub =>
        { hub with edges := hub.edges.filter (· ≠ edge) }).get? key =
      if key = vertex then
        (g.hubs.get? vertex).map fun hub => { hub with edges := hub.edges.filter (· ≠ edge) }
      else g.hubs.get? key :=
  Arena.get?_modify vertex key _

theorem detach_of_last {hub : Hub} (h : g.hubs.get? vertex = some hub)
    (hlast : hub.without edge = none) :
    g.detach vertex edge = (1, { g with
      hubs := (g.hubs.modify vertex fun hub =>
        { hub with edges := hub.edges.filter (· ≠ edge) }).remove vertex
      places := g.places.erase hub.vertex }) := by
  have hempty : hub.edges.filter (· ≠ edge) = #[] := by
    simpa [Hub.without] using hlast
  have hget := @get?_filtered g vertex edge vertex
  rw [if_pos rfl, h, Option.map_some, hempty] at hget
  unfold detach
  simp only [hget]
  rfl

theorem detach_of_rest (h : ∀ hub, g.hubs.get? vertex = some hub → hub.without edge ≠ none) :
    g.detach vertex edge = (0, { g with
      hubs := g.hubs.modify vertex fun hub =>
        { hub with edges := hub.edges.filter (· ≠ edge) } }) := by
  have hget := @get?_filtered g vertex edge vertex
  rw [if_pos rfl] at hget
  unfold detach
  simp only [hget]
  cases hold : g.hubs.get? vertex with
  | none => rfl
  | some hub =>
    have hne : hub.edges.filter (· ≠ edge) ≠ #[] := by
      intro hempty
      exact h hub hold (by simp only [Hub.without, hempty, if_true])
    simp only [Option.map_some, Array.isEmpty_iff, hne, if_false]

theorem without_eq_some {hub rest : Hub} (h : hub.without edge = some rest) :
    rest = { hub with edges := hub.edges.filter (· ≠ edge) } ∧ rest.edges ≠ #[] := by
  unfold Hub.without at h
  dsimp only at h
  split at h
  next => cases h
  next hne =>
    cases h
    exact ⟨rfl, hne⟩

/-- A vertex loses the edge from its list, and goes when it was the last one. -/
theorem get?_detach (key : VertexKey) :
    (g.detach vertex edge).2.hubs.get? key =
      if key = vertex then (g.hubs.get? vertex).bind (·.without edge) else g.hubs.get? key := by
  have hget := @get?_filtered g vertex edge key
  by_cases hlast : ∃ hub, g.hubs.get? vertex = some hub ∧ hub.without edge = none
  · obtain ⟨hub, hold, hnone⟩ := hlast
    rw [detach_of_last hold hnone]
    simp only [Arena.get?_remove, hget]
    by_cases hkey : key = vertex
    · simp [hkey, hold, hnone]
    · simp [hkey]
  · have hrest : ∀ hub, g.hubs.get? vertex = some hub → hub.without edge ≠ none :=
      fun hub hold hnone => hlast ⟨hub, hold, hnone⟩
    rw [detach_of_rest hrest]
    simp only [hget]
    by_cases hkey : key = vertex
    · simp only [hkey, if_true]
      cases hold : g.hubs.get? vertex with
      | none => rfl
      | some hub =>
        obtain ⟨rest, hsome⟩ := Option.ne_none_iff_exists'.mp (hrest hub hold)
        rw [Option.map_some, Option.bind_some, hsome, (without_eq_some hsome).1]
    · simp only [hkey, if_false]

theorem vertexAt_detach_of_ne {key : VertexKey} (hkey : key ≠ vertex) :
    (g.detach vertex edge).2.vertexAt key = g.vertexAt key := by
  unfold vertexAt
  rw [get?_detach, if_neg hkey]

theorem vertexAt_of_detach {key : VertexKey} {kept : Vertex}
    (h : (g.detach vertex edge).2.vertexAt key = some kept) : g.vertexAt key = some kept := by
  by_cases hkey : key = vertex
  · subst hkey
    obtain ⟨hub, hget, rfl⟩ := vertexAt_eq_some.mp h
    rw [get?_detach, if_pos rfl, Option.bind_eq_some_iff] at hget
    obtain ⟨old, hold, hrest⟩ := hget
    have hname : hub.vertex = old.vertex := by rw [(without_eq_some hrest).1]
    rw [vertexAt_of_get? hold, hname]
  · rwa [vertexAt_detach_of_ne hkey] at h

theorem Placed.detach (placed : g.Placed) : (g.detach vertex edge).2.Placed := by
  by_cases hlast : ∃ hub, g.hubs.get? vertex = some hub ∧ hub.without edge = none
  · obtain ⟨hub, hold, hnone⟩ := hlast
    have hvertex := @get?_detach g vertex edge
    have hother := @vertexAt_detach_of_ne g vertex edge
    rw [detach_of_last hold hnone] at hvertex hother ⊢
    refine ⟨(placed.hubs.modify _ _).remove _, fun name key => ?_⟩
    have hgone : g.vertexAt vertex = some hub.vertex := vertexAt_of_get? hold
    by_cases hkey : key = vertex
    · subst hkey
      simp only [vertexAt, hvertex, if_true, hold, Option.bind_some, hnone]
      rw [Std.ExtTreeMap.getElem?_erase]
      by_cases hname : hub.vertex = name
      · simp [hname]
      · simp only [Std.compare_eq_iff_eq, hname, if_false, placed.places, hgone]
        simp [hname]
    · rw [hother hkey, Std.ExtTreeMap.getElem?_erase]
      by_cases hname : hub.vertex = name
      · subst hname
        simp only [Std.ReflCmp.compare_self, if_true, reduceCtorEq, false_iff]
        exact fun h => hkey (placed.key_unique h hgone)
      · simp [hname, placed.places]
  · have hrest : ∀ hub, g.hubs.get? vertex = some hub → hub.without edge ≠ none :=
      fun hub hold hnone => hlast ⟨hub, hold, hnone⟩
    have hvertex := @get?_filtered g vertex edge
    rw [detach_of_rest hrest]
    refine ⟨placed.hubs.modify _ _, fun name key => ?_⟩
    rw [placed.places]
    simp only [vertexAt, hvertex]
    by_cases hkey : key = vertex
    · subst hkey
      cases g.hubs.get? key <;> simp
    · simp [hkey]

end Detach

section Cut

variable {g : AccessGraph} {key : EdgeKey} {edge : AccessEdge}

def cut (g : AccessGraph) (key : EdgeKey) (edge : AccessEdge) : AccessGraph :=
  let g := { g with
    edges := g.edges.remove key
    index := g.index.erase (edge.identity, edge.object) }
  ((g.detach edge.identity key).2.detach edge.object key).2

theorem get?_edges_cut (e : EdgeKey) :
    (g.cut key edge).edges.get? e = if e = key then none else g.edges.get? e := by
  simp only [cut, edges_detach]
  exact Arena.get?_remove key e

theorem Linked.get?_cut (linked : g.Linked) (h : g.edges.get? key = some edge)
    (vertex : VertexKey) :
    (g.cut key edge).hubs.get? vertex =
      if vertex = edge.identity ∨ vertex = edge.object then
        (g.hubs.get? vertex).bind (·.without key)
      else g.hubs.get? vertex := by
  obtain ⟨⟨name, hname⟩, ⟨object, hobject⟩⟩ := linked.sides h
  have hne : edge.identity ≠ edge.object := by
    intro heq
    simp [heq, hobject] at hname
  simp only [cut, get?_detach]
  by_cases hl : vertex = edge.identity
  · subst hl
    simp [hne]
  · by_cases hr : vertex = edge.object
    · subst hr
      simp [hl]
    · simp [hl, hr]

theorem Linked.vertexAt_cut (linked : g.Linked) (h : g.edges.get? key = some edge)
    {vertex : VertexKey} {hub : Hub} (hhub : g.hubs.get? vertex = some hub) {other : EdgeKey}
    (hmem : other ∈ hub.edges) (hother : other ≠ key) :
    (g.cut key edge).vertexAt vertex = some hub.vertex := by
  have hkept : other ∈ hub.edges.filter (· ≠ key) := by simp [hmem, hother]
  have hne : hub.edges.filter (· ≠ key) ≠ #[] := by
    intro hempty
    rw [hempty] at hkept
    exact Array.not_mem_empty _ hkept
  have hrest : hub.without key = some { hub with edges := hub.edges.filter (· ≠ key) } := by
    simp only [Hub.without, hne, if_false]
  unfold vertexAt
  rw [linked.get?_cut h, hhub, Option.bind_some, hrest]
  split <;> rfl

theorem Linked.index_cut (linked : g.Linked) (h : g.edges.get? key = some edge)
    (pair : VertexKey × VertexKey) (e : EdgeKey) :
    (g.cut key edge).index[pair]? = some e ↔
      ((g.cut key edge).edges.get? e).map AccessEdge.sides = some pair := by
  have hindex : (g.cut key edge).index = g.index.erase edge.sides := by
    simp [AccessGraph.cut, AccessEdge.sides]
  have hown : g.index[edge.sides]? = some key := (linked.index _ _).mpr (by simp [h])
  rw [get?_edges_cut, hindex, Std.ExtTreeMap.getElem?_erase]
  simp only [Std.compare_eq_iff_eq]
  by_cases he : e = key
  · subst he
    by_cases hpair : edge.sides = pair
    · simp [hpair]
    · simp [hpair, linked.index, h]
  · by_cases hpair : edge.sides = pair
    · subst hpair
      simp only [if_true, he, if_false, ← linked.index, hown, Option.some.injEq]
      simp [Ne.symm he]
    · simp only [hpair, he, if_false, linked.index]

theorem Linked.sides_cut (linked : g.Linked) (h : g.edges.get? key = some edge) {e : EdgeKey}
    {other : AccessEdge} (hother : (g.cut key edge).edges.get? e = some other) :
    (∃ name, (g.cut key edge).vertexAt other.identity = some (.identity name)) ∧
      ∃ object, (g.cut key edge).vertexAt other.object = some (.object object) := by
  rw [get?_edges_cut] at hother
  split at hother
  next => cases hother
  next he =>
    obtain ⟨⟨name, hname⟩, ⟨object, hobject⟩⟩ := linked.sides hother
    obtain ⟨left, hleft, hl⟩ := vertexAt_eq_some.mp hname
    obtain ⟨right, hright, hr⟩ := vertexAt_eq_some.mp hobject
    -- the other edge keeps its ends alive, also where they lose the edge that is cut off
    have hmemLeft := (linked.incident hleft e).mpr ⟨other, hother, .inl rfl⟩
    have hmemRight := (linked.incident hright e).mpr ⟨other, hother, .inr rfl⟩
    exact ⟨⟨name, by rw [linked.vertexAt_cut h hleft hmemLeft he, hl]⟩,
      ⟨object, by rw [linked.vertexAt_cut h hright hmemRight he, hr]⟩⟩

theorem Linked.incident_cut (linked : g.Linked) (h : g.edges.get? key = some edge)
    {vertex : VertexKey} {hub : Hub} (hsome : (g.cut key edge).hubs.get? vertex = some hub)
    (e : EdgeKey) :
    e ∈ hub.edges ↔ ∃ other, (g.cut key edge).edges.get? e = some other ∧
      (other.identity = vertex ∨ other.object = vertex) := by
  have hlive : (∃ other, (g.cut key edge).edges.get? e = some other ∧
      (other.identity = vertex ∨ other.object = vertex)) ↔
      (∃ other, g.edges.get? e = some other ∧
        (other.identity = vertex ∨ other.object = vertex)) ∧ e ≠ key := by
    rw [get?_edges_cut]
    by_cases he : e = key <;> simp [he]
  rw [hlive]
  rw [linked.get?_cut h] at hsome
  split at hsome
  next =>
    obtain ⟨old, hold, hrest⟩ := Option.bind_eq_some_iff.mp hsome
    rw [(without_eq_some hrest).1, ← linked.incident hold e]
    simp
  next hend =>
    rw [linked.incident hsome]
    refine ⟨fun hside => ⟨hside, ?_⟩, And.left⟩
    rintro rfl
    obtain ⟨other, hother, hside⟩ := hside
    rw [h] at hother
    cases hother
    exact hend (hside.imp Eq.symm Eq.symm)

theorem Sound.cut (sound : g.Sound) (h : g.edges.get? key = some edge) :
    (g.cut key edge).Sound := by
  have hplaced : ({ g with
      edges := g.edges.remove key
      index := g.index.erase (edge.identity, edge.object) } : AccessGraph).Placed :=
    ⟨sound.hubs, sound.places⟩
  refine { toPlaced := hplaced.detach.detach, edges := ?_, index := sound.index_cut h,
           sides := sound.sides_cut h, nodup := ?_, incident := sound.incident_cut h,
           positive := ?_, busy := ?_ }
  · simp only [AccessGraph.cut, edges_detach]
    exact sound.edges.remove _
  · intro vertex hub hsome
    rw [sound.get?_cut h] at hsome
    split at hsome
    next =>
      obtain ⟨old, hold, hrest⟩ := Option.bind_eq_some_iff.mp hsome
      rw [(without_eq_some hrest).1, Array.toList_filter]
      exact (sound.nodup hold).filter _
    next => exact sound.nodup hsome
  · intro e other hother
    rw [get?_edges_cut] at hother
    split at hother
    next => cases hother
    next => exact sound.positive hother
  · intro vertex hub hsome
    rw [sound.get?_cut h] at hsome
    split at hsome
    next =>
      obtain ⟨old, -, hrest⟩ := Option.bind_eq_some_iff.mp hsome
      exact (without_eq_some hrest).2
    next => exact sound.busy hsome

end Cut

end AccessGraph

end Cohort
