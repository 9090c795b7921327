import Cohort.Proofs.AccessGraph.Sound

/-! What a sound graph says of an access: under at most one key it holds the pair of an identity
and an object, and the key has a weight as long as it has a pair. Counting and subtracting are read
off the weights and pairs of keys alone. -/

namespace Cohort.AccessGraph

section Ends

variable {g : AccessGraph}

theorem nameOf_eq_some {key : VertexKey} {name : Identity} :
    g.nameOf key = some name ↔ g.vertexAt key = some (.identity name) := by
  unfold nameOf vertexAt
  cases g.hubs.get? key with
  | none => simp
  | some hub => cases hvertex : hub.vertex <;> simp [Vertex.name?, hvertex]

theorem objectOf_eq_some {key : VertexKey} {object : ObjectId} :
    g.objectOf key = some object ↔ g.vertexAt key = some (.object object) := by
  unfold objectOf vertexAt
  cases g.hubs.get? key with
  | none => simp
  | some hub => cases hvertex : hub.vertex <;> simp [Vertex.object?, hvertex]

theorem ends?_eq_some {key : EdgeKey} {name : Identity} {object : ObjectId} :
    g.ends? key = some (name, object) ↔ ∃ edge, g.edges.get? key = some edge ∧
      g.vertexAt edge.identity = some (.identity name) ∧
        g.vertexAt edge.object = some (.object object) := by
  simp only [ends?, bind, Option.bind_eq_some_iff, pure, Option.some.injEq, Prod.mk.injEq,
    nameOf_eq_some, objectOf_eq_some]
  constructor
  · rintro ⟨edge, hedge, _, hname, _, hobject, rfl, rfl⟩
    exact ⟨edge, hedge, hname, hobject⟩
  · rintro ⟨edge, hedge, hname, hobject⟩
    exact ⟨edge, hedge, name, hname, object, hobject, rfl, rfl⟩

theorem weightOf_eq_some {key : EdgeKey} {weight : Weight} :
    g.weightOf key = some weight ↔ ∃ edge, g.edges.get? key = some edge ∧ edge.weight = weight := by
  simp [weightOf]

theorem weightOf_eq_none {key : EdgeKey} : g.weightOf key = none ↔ g.edges.get? key = none := by
  simp [weightOf]

theorem Linked.ends?_isSome (linked : g.Linked) {key : EdgeKey} {edge : AccessEdge}
    (h : g.edges.get? key = some edge) : ∃ pair, g.ends? key = some pair := by
  obtain ⟨⟨name, hname⟩, ⟨object, hobject⟩⟩ := linked.sides h
  exact ⟨(name, object), ends?_eq_some.mpr ⟨edge, h, hname, hobject⟩⟩

theorem Linked.ends?_eq_none (linked : g.Linked) {key : EdgeKey} :
    g.ends? key = none ↔ g.weightOf key = none := by
  rw [weightOf_eq_none]
  constructor
  · intro hends
    by_contra hlive
    obtain ⟨edge, hedge⟩ := Option.ne_none_iff_exists'.mp hlive
    obtain ⟨pair, hpair⟩ := linked.ends?_isSome hedge
    rw [hends] at hpair
    cases hpair
  · intro hgone
    simp [ends?, hgone]

theorem Linked.weight_of_ends? (linked : g.Linked) {key : EdgeKey} {pair : Identity × ObjectId}
    (h : g.ends? key = some pair) : ∃ weight, g.weightOf key = some weight ∧ 0 < weight := by
  obtain ⟨edge, hedge, -⟩ := ends?_eq_some.mp h
  exact ⟨edge.weight, weightOf_eq_some.mpr ⟨edge, hedge, rfl⟩, linked.positive hedge⟩

theorem Linked.key?_eq_some (linked : g.Linked) {name : Identity} {object : ObjectId}
    {key : EdgeKey} : g.key? name object = some key ↔ g.ends? key = some (name, object) := by
  simp only [key?, bind, Option.bind_eq_some_iff, linked.places, linked.index, ends?_eq_some,
    Option.map_eq_some_iff, AccessEdge.sides, Prod.mk.injEq]
  constructor
  · rintro ⟨_, hname, _, hobject, edge, hedge, rfl, rfl⟩
    exact ⟨edge, hedge, hname, hobject⟩
  · rintro ⟨edge, hedge, hname, hobject⟩
    exact ⟨_, hname, _, hobject, edge, hedge, rfl, rfl⟩

theorem Linked.ends?_unique (linked : g.Linked) {left right : EdgeKey}
    {pair : Identity × ObjectId} (hl : g.ends? left = some pair)
    (hr : g.ends? right = some pair) : left = right := by
  rw [← linked.key?_eq_some] at hl hr
  exact Option.some.inj (hl.symm.trans hr)

theorem Linked.edgeWeight_eq_some (linked : g.Linked) {name : Identity} {object : ObjectId}
    {weight : Weight} : g.edgeWeight name object = some weight ↔
      ∃ key, g.ends? key = some (name, object) ∧ g.weightOf key = some weight := by
  simp only [edgeWeight, Option.bind_eq_some_iff, linked.key?_eq_some]

theorem Linked.edgeWeight_eq_none (linked : g.Linked) {name : Identity} {object : ObjectId} :
    g.edgeWeight name object = none ↔ ∀ key, g.ends? key ≠ some (name, object) := by
  constructor
  · intro hnone key hends
    obtain ⟨weight, hweight, -⟩ := linked.weight_of_ends? hends
    rw [linked.edgeWeight_eq_some.mpr ⟨key, hends, hweight⟩] at hnone
    cases hnone
  · intro h
    by_contra hsome
    obtain ⟨weight, hweight⟩ := Option.ne_none_iff_exists'.mp hsome
    obtain ⟨key, hends, -⟩ := linked.edgeWeight_eq_some.mp hweight
    exact h key hends

theorem Placed.contains_iff_vertexAt (placed : g.Placed) {vertex : Vertex} :
    g.contains vertex ↔ ∃ key, g.vertexAt key = some vertex := by
  simp only [← placed.places, contains, ← Std.ExtTreeMap.mem_iff_contains,
    Std.ExtTreeMap.mem_iff_isSome_getElem?, Option.isSome_iff_exists]

theorem Sound.contains_iff (sound : g.Sound) {vertex : Vertex} :
    g.contains vertex ↔ ∃ name object weight, g.edgeWeight name object = some weight ∧
      (vertex = .identity name ∨ vertex = .object object) := by
  rw [sound.contains_iff_vertexAt]
  constructor
  · rintro ⟨key, hkey⟩
    obtain ⟨hub, hhub, rfl⟩ := vertexAt_eq_some.mp hkey
    obtain ⟨e, he⟩ := Array.exists_mem_of_ne_empty _ (sound.busy hhub)
    obtain ⟨edge, hedge, hend⟩ := (sound.incident hhub e).mp he
    obtain ⟨⟨name, hname⟩, ⟨object, hobject⟩⟩ := sound.sides hedge
    refine ⟨name, object, edge.weight, sound.edgeWeight_eq_some.mpr
      ⟨e, ends?_eq_some.mpr ⟨edge, hedge, hname, hobject⟩, by simp [weightOf, hedge]⟩, ?_⟩
    rcases hend with rfl | rfl
    · exact .inl (Option.some.inj (hkey.symm.trans hname))
    · exact .inr (Option.some.inj (hkey.symm.trans hobject))
  · rintro ⟨name, object, weight, hweight, hvertex⟩
    obtain ⟨key, hends, -⟩ := sound.edgeWeight_eq_some.mp hweight
    obtain ⟨edge, -, hname, hobject⟩ := ends?_eq_some.mp hends
    rcases hvertex with rfl | rfl
    · exact ⟨_, hname⟩
    · exact ⟨_, hobject⟩

theorem Sound.isEmpty (sound : g.Sound) (h : ∀ key, g.weightOf key = none) :
    g.isEmpty ∧ g.edgeCount = 0 ∧ g.places = ∅ := by
  have hhub : ∀ key, g.hubs.get? key = none := by
    intro key
    by_contra hsome
    obtain ⟨hub, hget⟩ := Option.ne_none_iff_exists'.mp hsome
    obtain ⟨e, he⟩ := Array.exists_mem_of_ne_empty _ (sound.busy hget)
    obtain ⟨edge, hedge, -⟩ := (sound.incident hget e).mp he
    simp [weightOf_eq_none.mp (h e)] at hedge
  refine ⟨?_, sound.edges.size_eq_zero fun key => weightOf_eq_none.mp (h key), ?_⟩
  · simpa [AccessGraph.isEmpty, vertexCount] using sound.hubs.size_eq_zero hhub
  · apply Std.ExtTreeMap.ext_getElem?
    intro vertex
    cases hplace : g.places[vertex]? with
    | none => simp
    | some key =>
      rw [sound.places, vertexAt, hhub] at hplace
      cases hplace

end Ends

theorem ends?_congr {g h : AccessGraph} {key : EdgeKey}
    (hedge : (h.edges.get? key).map AccessEdge.sides = (g.edges.get? key).map AccessEdge.sides)
    (hvertex : ∀ edge, g.edges.get? key = some edge →
      h.vertexAt edge.identity = g.vertexAt edge.identity ∧
        h.vertexAt edge.object = g.vertexAt edge.object) :
    h.ends? key = g.ends? key := by
  ext ⟨name, object⟩
  simp only [ends?_eq_some]
  cases hg : g.edges.get? key with
  | none =>
    rw [hg, Option.map_none, Option.map_eq_none_iff] at hedge
    simp [hedge]
  | some edge =>
    rw [hg, Option.map_some, Option.map_eq_some_iff] at hedge
    obtain ⟨other, hother, hsides⟩ := hedge
    obtain ⟨hl, hr⟩ := hvertex edge hg
    simp only [AccessEdge.sides, Prod.mk.injEq] at hsides
    simp only [hother, Option.some.injEq, exists_eq_left', hsides, hl, hr]

section Increment

variable {g : AccessGraph} (name : Identity) (object : ObjectId)

def settle (g : AccessGraph) (name : Identity) (object : ObjectId) : AccessGraph :=
  ((g.ensure (.identity name)).2.ensure (.object object)).2

def sidesOf (g : AccessGraph) (name : Identity) (object : ObjectId) : VertexKey × VertexKey :=
  ((g.ensure (.identity name)).1, ((g.ensure (.identity name)).2.ensure (.object object)).1)

@[simp] theorem edges_settle (g : AccessGraph) : (g.settle name object).edges = g.edges := by
  simp [settle]

@[simp] theorem index_settle (g : AccessGraph) : (g.settle name object).index = g.index := by
  simp [settle]

theorem increment_eq (g : AccessGraph) :
    g.increment name object =
      match g.index[g.sidesOf name object]?.filter fun key => (g.edges.get? key).isSome with
      | some key => (key, { g.settle name object with
          edges := g.edges.modify key fun edge => { edge with weight := edge.weight + 1 } })
      | none => (g.settle name object).connect (g.sidesOf name object).1
          (g.sidesOf name object).2 := by
  rw [← index_settle name object g, ← edges_settle name object g]
  rfl

theorem Linked.settle (linked : g.Linked) : (g.settle name object).Linked :=
  (linked.ensure _).ensure _

theorem Linked.vertexAt_settle (linked : g.Linked) {key : VertexKey} {vertex : Vertex}
    (h : g.vertexAt key = some vertex) : (g.settle name object).vertexAt key = some vertex :=
  (linked.ensure _).vertexAt_ensure _ (linked.vertexAt_ensure _ h)

theorem Linked.vertexAt_sidesOf (linked : g.Linked) :
    (g.settle name object).vertexAt (g.sidesOf name object).1 = some (.identity name) ∧
      (g.settle name object).vertexAt (g.sidesOf name object).2 = some (.object object) :=
  ⟨(linked.ensure _).vertexAt_ensure _ (linked.vertexAt_ensure_fst _),
    (linked.ensure _).vertexAt_ensure_fst _⟩

theorem Linked.sidesOf_ne (linked : g.Linked) :
    (g.sidesOf name object).1 ≠ (g.sidesOf name object).2 := by
  obtain ⟨hleft, hright⟩ := linked.vertexAt_sidesOf name object
  intro hsame
  simp [hsame, hright] at hleft

theorem Linked.ends?_settle (linked : g.Linked) (key : EdgeKey) :
    (g.settle name object).ends? key = g.ends? key := by
  apply ends?_congr
  · rw [edges_settle]
  · intro edge hedge
    obtain ⟨⟨left, hleft⟩, ⟨right, hright⟩⟩ := linked.sides hedge
    rw [hleft, hright]
    exact ⟨linked.vertexAt_settle name object hleft, linked.vertexAt_settle name object hright⟩

theorem Sound.busy_settle (sound : g.Sound) {key : VertexKey} {hub : Hub}
    (h : (g.settle name object).hubs.get? key = some hub) :
    hub.edges ≠ #[] ∨ key = (g.sidesOf name object).1 ∨ key = (g.sidesOf name object).2 := by
  unfold AccessGraph.settle at h
  rw [(sound.toLinked.ensure _).get?_ensure] at h
  split at h
  next hnew => exact .inr (.inr hnew.1)
  next =>
    rw [sound.get?_ensure] at h
    split at h
    next hnew => exact .inr (.inl hnew.1)
    next => exact .inl (sound.busy h)

theorem Linked.ends?_of_index (linked : g.Linked) {key : EdgeKey}
    (h : g.index[g.sidesOf name object]? = some key) :
    (∃ edge, g.edges.get? key = some edge) ∧ g.ends? key = some (name, object) := by
  obtain ⟨edge, hedge, hsides⟩ := Option.map_eq_some_iff.mp ((linked.index _ _).mp h)
  obtain ⟨hleft, hright⟩ := linked.vertexAt_sidesOf name object
  rw [← hsides] at hleft hright
  have hends : (g.settle name object).ends? key = some (name, object) :=
    ends?_eq_some.mpr ⟨edge, by rwa [edges_settle], hleft, hright⟩
  rw [linked.ends?_settle] at hends
  exact ⟨⟨edge, hedge⟩, hends⟩

/-- Counting an access finds the edge of the pair or makes it. -/
theorem Linked.increment_cases (linked : g.Linked) :
    (∃ key, g.edges.get? key ≠ none ∧ g.ends? key = some (name, object) ∧
      g.increment name object = (key, { g.settle name object with
        edges := g.edges.modify key fun edge => { edge with weight := edge.weight + 1 } })) ∨
    (g.index[g.sidesOf name object]? = none ∧ g.increment name object =
      (g.settle name object).connect (g.sidesOf name object).1 (g.sidesOf name object).2) := by
  rw [increment_eq]
  cases hindex : g.index[g.sidesOf name object]? with
  | none => exact .inr ⟨rfl, rfl⟩
  | some key =>
    obtain ⟨⟨edge, hedge⟩, hends⟩ := linked.ends?_of_index name object hindex
    have hfound : (some key).filter (fun key => (g.edges.get? key).isSome) = some key := by
      simp [Option.filter, hedge]
    rw [hfound]
    exact .inl ⟨key, by simp [hedge], hends, rfl⟩

theorem Sound.increment (sound : g.Sound) : (g.increment name object).2.Sound := by
  have hlinked := sound.toLinked.settle name object
  rcases sound.toLinked.increment_cases name object with
    ⟨key, hlive, hends, heq⟩ | ⟨hnew, heq⟩
  · have hedges := edges_settle name object g
    -- the edge stands on the lists of both ends, so neither is new
    have hsettled : (g.settle name object).Sound := by
      refine ⟨hlinked, fun {vertex hub} hget => ?_⟩
      rcases sound.busy_settle name object hget with hbusy | hside
      · exact hbusy
      obtain ⟨hleft, hright⟩ := sound.toLinked.vertexAt_sidesOf name object
      rw [← sound.ends?_settle name object] at hends
      obtain ⟨edge, hedge, hl, hr⟩ := ends?_eq_some.mp hends
      have hmem : key ∈ hub.edges := by
        rw [hlinked.incident hget]
        refine ⟨edge, hedge, ?_⟩
        rcases hside with rfl | rfl
        · exact .inl (hlinked.key_unique hl hleft)
        · exact .inr (hlinked.key_unique hr hright)
      rintro hempty
      simp [hempty] at hmem
    rw [heq, ← hedges]
    exact hsettled.setWeight key (· + 1) fun weight _ => Nat.succ_pos weight
  · rw [heq]
    obtain ⟨hleft, hright⟩ := sound.toLinked.vertexAt_sidesOf name object
    have hne := sound.toLinked.sidesOf_ne name object
    refine ⟨hlinked.connect hleft hright (by rwa [index_settle]),
      fun {vertex hub} hget => ?_⟩
    rw [get?_connect hne] at hget
    split at hget
    next =>
      obtain ⟨old, -, rfl⟩ := Option.map_eq_some_iff.mp hget
      simp
    next hother => exact (sound.busy_settle name object hget).resolve_right hother

theorem Linked.ends?_increment_fst (linked : g.Linked) :
    g.ends? (g.increment name object).1 = some (name, object) ∨
      g.ends? (g.increment name object).1 = none := by
  rcases linked.increment_cases name object with ⟨key, -, hends, heq⟩ | ⟨-, heq⟩
  · rw [heq]
    exact .inl hends
  · right
    rw [heq, linked.ends?_eq_none, weightOf_eq_none]
    have hfresh := (linked.settle name object).get?_connect_fst
      (g.sidesOf name object).1 (g.sidesOf name object).2
    rwa [edges_settle] at hfresh

theorem Linked.ends?_increment (linked : g.Linked) (key : EdgeKey) :
    (g.increment name object).2.ends? key =
      if key = (g.increment name object).1 then some (name, object) else g.ends? key := by
  have hlinked := linked.settle name object
  rcases linked.increment_cases name object with ⟨own, -, hends, heq⟩ | ⟨-, heq⟩
  · rw [heq]
    have hsame : ∀ e, ({ g.settle name object with
        edges := g.edges.modify own fun edge =>
          { edge with weight := edge.weight + 1 } } : AccessGraph).ends? e = g.ends? e := by
      intro e
      rw [← linked.ends?_settle name object]
      apply ends?_congr
      · simp only [Arena.get?_modify, AccessGraph.settle, edges_ensure]
        split
        next he =>
          subst he
          cases g.edges.get? e <;> rfl
        next => rfl
      · exact fun _ _ => ⟨rfl, rfl⟩
    rw [hsame]
    split
    next hkey => rw [hkey, hends]
    next => rfl
  · obtain ⟨hleft, hright⟩ := linked.vertexAt_sidesOf name object
    have hne := linked.sidesOf_ne name object
    have hget := hlinked.get?_edges_connect (g.sidesOf name object).1 (g.sidesOf name object).2
    rw [heq]
    split
    next hkey =>
      refine ends?_eq_some.mpr ⟨_, (hget key).trans (if_pos hkey), ?_, ?_⟩
      · rw [vertexAt_connect hne, hleft]
      · rw [vertexAt_connect hne, hright]
    next hkey =>
      rw [← linked.ends?_settle name object]
      apply ends?_congr
      · rw [hget, if_neg hkey]
      · exact fun _ _ => ⟨vertexAt_connect hne _, vertexAt_connect hne _⟩

theorem Linked.ends?_increment_of_some (linked : g.Linked) {key : EdgeKey}
    {pair : Identity × ObjectId} (h : g.ends? key = some pair) :
    (g.increment name object).2.ends? key = some pair := by
  rw [linked.ends?_increment]
  split
  next hkey =>
    have hcases := linked.ends?_increment_fst name object
    rw [← hkey, h] at hcases
    simpa [eq_comm] using hcases
  next => exact h

theorem Linked.vertexAt_increment (linked : g.Linked) {key : VertexKey} {vertex : Vertex}
    (h : g.vertexAt key = some vertex) :
    (g.increment name object).2.vertexAt key = some vertex := by
  have hsettle := linked.vertexAt_settle name object h
  rcases linked.increment_cases name object with ⟨_, -, -, heq⟩ | ⟨-, heq⟩
  · rw [heq]
    exact hsettle
  · rw [heq, vertexAt_connect (linked.sidesOf_ne name object), hsettle]

theorem Sound.increment_fst (sound : g.Sound) {key : EdgeKey}
    (h : g.ends? key = some (name, object)) : (g.increment name object).1 = key := by
  have hown : (g.increment name object).2.ends? (g.increment name object).1 =
      some (name, object) := by rw [sound.ends?_increment, if_pos rfl]
  exact (sound.increment name object).ends?_unique hown
    (sound.ends?_increment_of_some name object h)

theorem Linked.weightOf_increment (linked : g.Linked) (key : EdgeKey) :
    (g.increment name object).2.weightOf key =
      if key = (g.increment name object).1 then some ((g.weightOf key).getD 0 + 1)
      else g.weightOf key := by
  rcases linked.increment_cases name object with ⟨own, hlive, -, heq⟩ | ⟨-, heq⟩
  · rw [heq]
    simp only [weightOf, Arena.get?_modify]
    split
    next hkey =>
      subst hkey
      cases hget : g.edges.get? key with
      | none => exact absurd hget hlive
      | some edge => rfl
    next => rfl
  · have hlinked := linked.settle name object
    have hget := hlinked.get?_edges_connect (g.sidesOf name object).1 (g.sidesOf name object).2
    have hfresh := hlinked.get?_connect_fst (g.sidesOf name object).1 (g.sidesOf name object).2
    have hedges := edges_settle name object g
    rw [hedges] at hget hfresh
    rw [heq]
    simp only [weightOf, hget]
    split
    next hkey =>
      rw [hkey, hfresh]
      rfl
    next => rfl

end Increment

section Decay

variable {g : AccessGraph} (key : EdgeKey) (amount : Nat)

/-- Subtracting from an edge finds none, leaves a weight, or cuts the edge off. -/
theorem decay_cases :
    (g.weightOf key = none ∧ g.decay key amount = (.missing, g)) ∨
    (∃ weight, g.weightOf key = some weight ∧ amount < weight ∧ g.decay key amount =
      (.decremented (weight - amount), { g with
        edges := g.edges.modify key fun edge => { edge with weight := weight - amount } })) ∨
    (∃ edge endpoints, g.edges.get? key = some edge ∧ edge.weight ≤ amount ∧
      g.decay key amount = (.removed endpoints, g.cut key edge)) := by
  cases hget : g.edges.get? key with
  | none => exact .inl ⟨weightOf_eq_none.mpr hget, by simp [decay, hget]⟩
  | some edge =>
    by_cases hless : amount < edge.weight
    · exact .inr (.inl ⟨edge.weight, by simp [weightOf, hget], hless,
        by simp [decay, hget, hless, Weight.subtract]⟩)
    · simp only [decay, hget, hless, if_false]
      exact .inr (.inr ⟨edge, _, rfl, Nat.le_of_not_lt hless, rfl⟩)

theorem Sound.decay (sound : g.Sound) : (g.decay key amount).2.Sound := by
  rcases decay_cases key amount with ⟨-, heq⟩ | ⟨weight, -, hless, heq⟩ |
    ⟨edge, endpoints, hget, -, heq⟩
  · rwa [heq]
  · rw [heq]
    exact sound.setWeight key (fun _ => weight - amount) fun _ _ => Nat.sub_pos_of_lt hless
  · rw [heq]
    exact sound.cut hget

theorem weightOf_decay (other : EdgeKey) :
    (g.decay key amount).2.weightOf other =
      if other = key then (g.weightOf key).bind fun weight =>
        if amount < weight then some (weight - amount) else none
      else g.weightOf other := by
  rcases decay_cases key amount with ⟨hnone, heq⟩ | ⟨weight, hsome, hless, heq⟩ |
    ⟨edge, endpoints, hget, hle, heq⟩
  · rw [heq, hnone]
    split
    next hkey => rw [hkey, hnone, Option.bind_none]
    next => rfl
  · rw [heq]
    simp only [weightOf, Arena.get?_modify] at hsome ⊢
    split
    next hkey =>
      obtain ⟨edge, hedge, rfl⟩ := Option.map_eq_some_iff.mp hsome
      simp [hedge, hless]
    next => rfl
  · rw [heq]
    simp only [weightOf, get?_edges_cut]
    split
    next => simp [hget, Nat.not_lt.mpr hle]
    next => rfl

theorem weightOf_of_decay {key : EdgeKey} {amount : Nat} {other : EdgeKey} {weight : Weight}
    (h : (g.decay key amount).2.weightOf other = some weight) :
    ∃ before, g.weightOf other = some before := by
  rw [weightOf_decay] at h
  split at h
  next hkey =>
    obtain ⟨before, hbefore, -⟩ := Option.bind_eq_some_iff.mp h
    exact ⟨before, hkey ▸ hbefore⟩
  next => exact ⟨weight, h⟩

theorem weightOf_decay_eq_none {other : EdgeKey} (h : g.weightOf other = none) :
    (g.decay key amount).2.weightOf other = none := by
  by_contra hsome
  obtain ⟨weight, hweight⟩ := Option.ne_none_iff_exists'.mp hsome
  obtain ⟨before, hbefore⟩ := weightOf_of_decay hweight
  rw [h] at hbefore
  cases hbefore

theorem Sound.ends?_decay (sound : g.Sound) (other : EdgeKey) :
    (g.decay key amount).2.ends? other =
      if (g.decay key amount).2.weightOf other = none then none else g.ends? other := by
  split
  next hnone => rwa [(sound.decay key amount).ends?_eq_none]
  next hlive =>
    rcases decay_cases key amount with ⟨-, heq⟩ | ⟨weight, -, -, heq⟩ |
      ⟨edge, endpoints, hget, -, heq⟩
    · rw [heq]
    · rw [heq]
      apply ends?_congr
      · simp only [Arena.get?_modify]
        split
        next he =>
          subst he
          cases g.edges.get? other <;> rfl
        next => rfl
      · exact fun _ _ => ⟨rfl, rfl⟩
    · rw [heq, weightOf_eq_none, get?_edges_cut] at hlive
      have hne : other ≠ key := fun hkey => hlive (if_pos hkey)
      rw [heq]
      apply ends?_congr
      · rw [get?_edges_cut, if_neg hne]
      · intro kept hkept
        obtain ⟨⟨name, hname⟩, ⟨object, hobject⟩⟩ := sound.sides hkept
        obtain ⟨left, hleft, hl⟩ := vertexAt_eq_some.mp hname
        obtain ⟨right, hright, hr⟩ := vertexAt_eq_some.mp hobject
        have hmemLeft := (sound.incident hleft other).mpr ⟨kept, hkept, .inl rfl⟩
        have hmemRight := (sound.incident hright other).mpr ⟨kept, hkept, .inr rfl⟩
        rw [sound.vertexAt_cut hget hleft hmemLeft hne,
          sound.vertexAt_cut hget hright hmemRight hne, hl, hr, hname, hobject]
        exact ⟨rfl, rfl⟩

end Decay

end Cohort.AccessGraph
