import Cohort.Projection
import Cohort.Proofs.AccessGraph.Weights
import Cohort.Proofs.SharingGraph
import Cohort.Proofs.Sum

/-! What the projection of a sound graph says: two identities are linked by what they use in
common, which is the sum over all objects of the smaller of their two uses. -/

namespace Cohort

theorem Tally.total_eq {κ : Type} [Ord κ] [Std.TransOrd κ] [Std.LawfulEqOrd κ] [DecidableEq κ]
    {t : Tally κ} {keys : List κ} (hnodup : keys.Nodup)
    (hcovers : ∀ key, 0 < t.count key → key ∈ keys) : t.total = addUp (keys.map t.count) := by
  have hentries : t.entries.map (·.2) = (t.entries.map (·.1)).map t.count := by
    rw [List.map_map]
    exact List.map_congr_left fun entry hmem => (mem_entries.mp hmem).1.symm
  rw [total, hentries]
  refine addUp_map_eq_of_subset t.nodup_keys hnodup ?_ ?_
  · intro key hmem
    obtain ⟨⟨_, n⟩, hentry, rfl⟩ := List.mem_map.mp hmem
    obtain ⟨hcount, hpositive⟩ := mem_entries.mp hentry
    exact hcovers _ (hcount ▸ hpositive)
  · intro key _ habsent
    by_contra hne
    exact habsent (List.mem_map_of_mem (mem_entries.mpr ⟨rfl, Nat.pos_of_ne_zero hne⟩))

namespace AccessGraph

variable {g : AccessGraph}

def use (g : AccessGraph) (name : Identity) (object : ObjectId) : Nat :=
  (g.edgeWeight name object).getD 0

/-- How much use two identities have in common. -/
def common (g : AccessGraph) (first second : Identity) : Nat :=
  addUp (g.objects.map fun object => min (g.use first object) (g.use second object))

def spokes (g : AccessGraph) (vertex : Vertex) : List EdgeKey :=
  (g.hub? vertex).elim [] fun hub => hub.edges.toList

theorem incident_eq (g : AccessGraph) (vertex : Vertex) :
    g.incident vertex = (g.spokes vertex).filterMap g.edges.get? := by
  unfold incident spokes
  cases g.hub? vertex <;> rfl

theorem Placed.spokes_of_get? (placed : g.Placed) {key : VertexKey} {hub : Hub}
    (h : g.hubs.get? key = some hub) : g.spokes hub.vertex = hub.edges.toList := by
  have hplace := (placed.places hub.vertex key).mpr (vertexAt_of_get? h)
  rw [spokes, hub?, hplace, Option.bind_some, h, Option.elim_some]

theorem Placed.spokes_of_absent (placed : g.Placed) {vertex : Vertex}
    (h : ∀ key, g.vertexAt key ≠ some vertex) : g.spokes vertex = [] := by
  have hplace : g.places[vertex]? = none := by
    rw [Option.eq_none_iff_forall_ne_some]
    exact fun key hkey => h key ((placed.places vertex key).mp hkey)
  rw [spokes, hub?, hplace, Option.bind_none, Option.elim_none]

theorem Placed.spokes_cases (placed : g.Placed) (vertex : Vertex) :
    (∃ key hub, g.hubs.get? key = some hub ∧ hub.vertex = vertex ∧
      g.spokes vertex = hub.edges.toList) ∨
    ((∀ key, g.vertexAt key ≠ some vertex) ∧ g.spokes vertex = []) := by
  by_cases h : ∃ key, g.vertexAt key = some vertex
  · obtain ⟨key, hkey⟩ := h
    obtain ⟨hub, hhub, rfl⟩ := vertexAt_eq_some.mp hkey
    exact .inl ⟨key, hub, hhub, rfl, placed.spokes_of_get? hhub⟩
  · rw [not_exists] at h
    exact .inr ⟨h, placed.spokes_of_absent h⟩

theorem Linked.nodup_spokes (linked : g.Linked) (vertex : Vertex) : (g.spokes vertex).Nodup := by
  rcases linked.spokes_cases vertex with ⟨key, hub, hhub, -, hspokes⟩ | ⟨-, hspokes⟩
  · rw [hspokes]
    exact linked.nodup hhub
  · rw [hspokes]
    exact List.nodup_nil

theorem Linked.mem_spokes (linked : g.Linked) {vertex : Vertex} {e : EdgeKey} :
    e ∈ g.spokes vertex ↔ ∃ edge, g.edges.get? e = some edge ∧
      (g.vertexAt edge.identity = some vertex ∨ g.vertexAt edge.object = some vertex) := by
  rcases linked.spokes_cases vertex with ⟨key, hub, hhub, rfl, hspokes⟩ | ⟨habsent, hspokes⟩
  · rw [hspokes, Array.mem_toList_iff, linked.incident hhub]
    simp only [linked.vertexAt_iff (vertexAt_of_get? hhub)]
  · rw [hspokes]
    simp only [habsent, List.not_mem_nil, or_self, and_false, exists_false]

theorem Linked.mem_spokes_identity (linked : g.Linked) {name : Identity} {e : EdgeKey} :
    e ∈ g.spokes (.identity name) ↔ ∃ object, g.ends? e = some (name, object) := by
  rw [linked.mem_spokes]
  simp only [ends?_eq_some]
  constructor
  · rintro ⟨edge, hedge, hname | hname⟩
    · obtain ⟨-, object, hobject⟩ := linked.sides hedge
      exact ⟨object, edge, hedge, hname, hobject⟩
    · obtain ⟨-, object, hobject⟩ := linked.sides hedge
      rw [hobject] at hname
      cases hname
  · rintro ⟨object, edge, hedge, hname, -⟩
    exact ⟨edge, hedge, .inl hname⟩

theorem Linked.mem_spokes_object (linked : g.Linked) {object : ObjectId} {e : EdgeKey} :
    e ∈ g.spokes (.object object) ↔ ∃ name, g.ends? e = some (name, object) := by
  rw [linked.mem_spokes]
  simp only [ends?_eq_some]
  constructor
  · rintro ⟨edge, hedge, hobject | hobject⟩
    · obtain ⟨⟨name, hname⟩, -⟩ := linked.sides hedge
      rw [hname] at hobject
      cases hobject
    · obtain ⟨⟨name, hname⟩, -⟩ := linked.sides hedge
      exact ⟨name, edge, hedge, hname, hobject⟩
  · rintro ⟨name, edge, hedge, -, hobject⟩
    exact ⟨edge, hedge, .inr hobject⟩

theorem identityEdges_eq (g : AccessGraph) (name : Identity) :
    g.identityEdges name = (g.spokes (.identity name)).filterMap fun e => do
      let edge ← g.edges.get? e
      let object ← g.objectOf edge.object
      return (object, edge.weight) := by
  rw [identityEdges, incident_eq, List.filterMap_filterMap]
  congr 1
  ext e
  cases g.edges.get? e with
  | none => rfl
  | some edge => cases hobject : g.objectOf edge.object <;> simp [hobject]

theorem objectEdges_eq (g : AccessGraph) (object : ObjectId) :
    g.objectEdges object = (g.spokes (.object object)).filterMap fun e => do
      let edge ← g.edges.get? e
      let name ← g.nameOf edge.identity
      return (name, edge.weight) := by
  rw [objectEdges, incident_eq, List.filterMap_filterMap]
  congr 1
  ext e
  cases g.edges.get? e with
  | none => rfl
  | some edge => cases hname : g.nameOf edge.identity <;> simp [hname]

/-- The edges at a vertex are read as what stands at their other ends, with their weights. -/
structure Reads {α : Type} (g : AccessGraph) (vertex : Vertex) (pair : α → Identity × ObjectId)
    (read : EdgeKey → Option (α × Weight)) : Prop where
  spoke : ∀ a e, g.ends? e = some (pair a) → e ∈ g.spokes vertex
  read : ∀ e ∈ g.spokes vertex, ∀ a weight, read e = some (a, weight) ↔
    g.ends? e = some (pair a) ∧ g.weightOf e = some weight

section Reads

variable {α : Type} {vertex : Vertex} {pair : α → Identity × ObjectId}
  {read : EdgeKey → Option (α × Weight)}

theorem Reads.mem_filterMap (reads : g.Reads vertex pair read) (linked : g.Linked) {a : α}
    {weight : Weight} : (a, weight) ∈ (g.spokes vertex).filterMap read ↔
      g.edgeWeight (pair a).1 (pair a).2 = some weight := by
  rw [List.mem_filterMap, linked.edgeWeight_eq_some]
  constructor
  · rintro ⟨e, hmem, he⟩
    exact ⟨e, (reads.read e hmem a weight).mp he⟩
  · rintro ⟨e, he⟩
    have hmem := reads.spoke a e he.1
    exact ⟨e, hmem, (reads.read e hmem a weight).mpr he⟩

theorem Reads.nodup_filterMap (reads : g.Reads vertex pair read) (linked : g.Linked) :
    (((g.spokes vertex).filterMap read).map (·.1)).Nodup := by
  rw [List.Nodup, List.pairwise_map, List.pairwise_filterMap]
  apply (linked.nodup_spokes vertex).imp_of_mem
  rintro e f he hf hne ⟨a, m⟩ hleft ⟨b, n⟩ hright heq
  obtain rfl : a = b := heq
  have hl := ((reads.read e he a m).mp hleft).1
  have hr := ((reads.read f hf a n).mp hright).1
  exact hne (linked.ends?_unique hl hr)

end Reads

theorem Linked.reads_identity (linked : g.Linked) (name : Identity) :
    g.Reads (.identity name) (name, ·) fun e => do
      let edge ← g.edges.get? e
      let object ← g.objectOf edge.object
      return (object, edge.weight) where
  spoke object e he := linked.mem_spokes_identity.mpr ⟨object, he⟩
  read e he object weight := by
    obtain ⟨known, hknown⟩ := linked.mem_spokes_identity.mp he
    obtain ⟨edge, hedge, -, hobject⟩ := ends?_eq_some.mp hknown
    simp [hedge, objectOf_eq_some.mpr hobject, hknown, weightOf]

theorem Linked.reads_object (linked : g.Linked) (object : ObjectId) :
    g.Reads (.object object) (·, object) fun e => do
      let edge ← g.edges.get? e
      let name ← g.nameOf edge.identity
      return (name, edge.weight) where
  spoke name e he := linked.mem_spokes_object.mpr ⟨name, he⟩
  read e he name weight := by
    obtain ⟨known, hknown⟩ := linked.mem_spokes_object.mp he
    obtain ⟨edge, hedge, hname, -⟩ := ends?_eq_some.mp hknown
    simp [hedge, nameOf_eq_some.mpr hname, hknown, weightOf]

theorem Linked.mem_identityEdges (linked : g.Linked) {name : Identity} {object : ObjectId}
    {weight : Weight} :
    (object, weight) ∈ g.identityEdges name ↔ g.edgeWeight name object = some weight := by
  rw [identityEdges_eq]
  exact (linked.reads_identity name).mem_filterMap linked

theorem Linked.mem_objectEdges (linked : g.Linked) {name : Identity} {object : ObjectId}
    {weight : Weight} :
    (name, weight) ∈ g.objectEdges object ↔ g.edgeWeight name object = some weight := by
  rw [objectEdges_eq]
  exact (linked.reads_object object).mem_filterMap linked

theorem Linked.nodup_identityEdges (linked : g.Linked) (name : Identity) :
    ((g.identityEdges name).map (·.1)).Nodup := by
  rw [identityEdges_eq]
  exact (linked.reads_identity name).nodup_filterMap linked

theorem Linked.nodup_objectEdges (linked : g.Linked) (object : ObjectId) :
    ((g.objectEdges object).map (·.1)).Nodup := by
  rw [objectEdges_eq]
  exact (linked.reads_object object).nodup_filterMap linked

theorem use_of_edgeWeight {name : Identity} {object : ObjectId} {weight : Weight}
    (h : g.edgeWeight name object = some weight) : g.use name object = weight := by
  rw [use, h, Option.getD_some]

theorem Linked.use_pos (linked : g.Linked) {name : Identity} {object : ObjectId} :
    0 < g.use name object ↔ ∃ weight, g.edgeWeight name object = some weight := by
  unfold use
  cases h : g.edgeWeight name object with
  | none => simp
  | some weight =>
    obtain ⟨key, hends, hweight⟩ := linked.edgeWeight_eq_some.mp h
    obtain ⟨w, hw, hpositive⟩ := linked.weight_of_ends? hends
    rw [hw] at hweight
    cases hweight
    simpa using hpositive

theorem mem_named {α : Type} {read : Vertex → Option α} {make : α → Vertex}
    (hread : ∀ vertex a, read vertex = some a ↔ vertex = make a) {a : α} :
    a ∈ g.places.keys.filterMap read ↔ g.contains (make a) := by
  simp [hread, contains, Std.ExtTreeMap.mem_keys]

theorem nodup_named {α : Type} {read : Vertex → Option α} {make : α → Vertex}
    (hread : ∀ vertex a, read vertex = some a ↔ vertex = make a) :
    (g.places.keys.filterMap read).Nodup := by
  refine List.Nodup.filterMap (fun first second a hfirst hsecond => ?_) Std.ExtTreeMap.nodup_keys
  rw [(hread first a).mp hfirst, (hread second a).mp hsecond]

theorem name?_eq_some (vertex : Vertex) (name : Identity) :
    vertex.name? = some name ↔ vertex = .identity name := by
  cases vertex <;> simp [Vertex.name?]

theorem object?_eq_some (vertex : Vertex) (object : ObjectId) :
    vertex.object? = some object ↔ vertex = .object object := by
  cases vertex <;> simp [Vertex.object?]

theorem mem_identities {name : Identity} : name ∈ g.identities ↔ g.contains (.identity name) :=
  mem_named name?_eq_some

theorem mem_objects {object : ObjectId} : object ∈ g.objects ↔ g.contains (.object object) :=
  mem_named object?_eq_some

theorem nodup_identities (g : AccessGraph) : g.identities.Nodup :=
  nodup_named name?_eq_some

theorem nodup_objects (g : AccessGraph) : g.objects.Nodup :=
  nodup_named object?_eq_some

def SameEdges (g h : AccessGraph) : Prop :=
  ∀ name object, (g.edgeWeight name object).isSome = (h.edgeWeight name object).isSome

section SameEdges

variable {h : AccessGraph} (same : g.SameEdges h) (sound : g.Sound) (sound' : h.Sound)

include same sound sound'

theorem SameEdges.contains (vertex : Vertex) : g.contains vertex = h.contains vertex := by
  rw [Bool.eq_iff_iff, sound.contains_iff, sound'.contains_iff]
  simp only [exists_and_right, ← Option.isSome_iff_exists, same _ _]

theorem SameEdges.keys_places : g.places.keys = h.places.keys := by
  refine keys_congr fun vertex => ?_
  rw [Std.ExtTreeMap.mem_iff_contains, Std.ExtTreeMap.mem_iff_contains]
  exact Bool.eq_iff_iff.mp (same.contains sound sound' vertex)

theorem SameEdges.identities : g.identities = h.identities := by
  rw [AccessGraph.identities, same.keys_places sound sound', AccessGraph.identities]

theorem SameEdges.objects : g.objects = h.objects := by
  rw [AccessGraph.objects, same.keys_places sound sound', AccessGraph.objects]

end SameEdges

theorem Sound.contains_of_use (sound : g.Sound) {name : Identity} {object : ObjectId}
    (h : 0 < g.use name object) :
    g.contains (.identity name) ∧ g.contains (.object object) := by
  obtain ⟨weight, hweight⟩ := sound.use_pos.mp h
  exact ⟨sound.contains_iff.mpr ⟨name, object, weight, hweight, .inl rfl⟩,
    sound.contains_iff.mpr ⟨name, object, weight, hweight, .inr rfl⟩⟩

theorem Sound.common_pos (sound : g.Sound) {first second : Identity} :
    0 < g.common first second ↔
      ∃ object, 0 < g.use first object ∧ 0 < g.use second object := by
  constructor
  · intro hpositive
    by_contra hnone
    rw [not_exists] at hnone
    have hzero : g.common first second = 0 := by
      apply addUp_eq_zero
      intro n hmem
      obtain ⟨object, -, rfl⟩ := List.mem_map.mp hmem
      have hobject := hnone object
      omega
    omega
  · rintro ⟨object, hfirst, hsecond⟩
    have hmem := mem_objects.mpr (sound.contains_of_use hfirst).2
    exact Nat.lt_of_lt_of_le (Nat.lt_min.mpr ⟨hfirst, hsecond⟩)
      (le_addUp (List.mem_map_of_mem hmem))

theorem Sound.identities_of_common (sound : g.Sound) {first second : Identity}
    (h : 0 < g.common first second) : first ∈ g.identities ∧ second ∈ g.identities := by
  obtain ⟨object, hfirst, hsecond⟩ := sound.common_pos.mp h
  exact ⟨mem_identities.mpr (sound.contains_of_use hfirst).1,
    mem_identities.mpr (sound.contains_of_use hsecond).1⟩

def Shares (g : AccessGraph) (first second : Identity) : Prop :=
  ∃ object, g.edgeWeight first object ≠ none ∧ g.edgeWeight second object ≠ none

theorem Sound.shares_iff (sound : g.Sound) {first second : Identity} :
    g.Shares first second ↔ 0 < g.common first second := by
  simp only [Shares, sound.common_pos, sound.use_pos, Option.ne_none_iff_exists']

/-- The users of an object after a name, each with the smaller of two uses. -/
theorem Linked.share_users (linked : g.Linked) (name other : Identity) (object : ObjectId)
    (own : Nat) :
    Tally.share other (((g.objectEdges object).filter fun user => name < user.1).map
        fun user => (user.1, min own user.2)) =
      if name < other then min own (g.use other object) else 0 := by
  have hkeys : ((((g.objectEdges object).filter fun user => name < user.1).map
      fun user => (user.1, min own user.2)).map (·.1)).Nodup := by
    rw [List.map_map]
    exact (linked.nodup_objectEdges object).sublist (List.filter_sublist.map _)
  have hmem {n : Nat} : (∃ m, (other, m) ∈ g.objectEdges object ∧ name < other ∧ min own m = n) →
      Tally.share other (((g.objectEdges object).filter fun user => name < user.1).map
        fun user => (user.1, min own user.2)) = n := by
    rintro ⟨m, hedge, hlt, rfl⟩
    apply Tally.share_of_mem hkeys
    exact List.mem_map.mpr ⟨(other, m), List.mem_filter.mpr ⟨hedge, by simpa using hlt⟩, rfl⟩
  by_cases hlt : name < other
  · rw [if_pos hlt]
    cases hweight : g.edgeWeight other object with
    | some weight =>
      rw [hmem ⟨weight, linked.mem_objectEdges.mpr hweight, hlt, rfl⟩, use_of_edgeWeight hweight]
    | none =>
      rw [use, hweight, Option.getD_none, Nat.min_zero]
      apply Tally.share_eq_zero
      simp only [List.map_map, List.mem_map, List.mem_filter, Function.comp_apply, not_exists,
        not_and]
      rintro ⟨user, m⟩ ⟨hedge, -⟩ rfl
      rw [linked.mem_objectEdges.mp hedge] at hweight
      cases hweight
  · rw [if_neg hlt]
    apply Tally.share_eq_zero
    simp only [List.map_map, List.mem_map, List.mem_filter, Function.comp_apply, not_exists,
      not_and]
    rintro ⟨user, m⟩ ⟨-, hafter⟩ rfl
    exact hlt (by simpa using hafter)

theorem Sound.count_shares (sound : g.Sound) (name other : Identity) :
    (g.shares name).count other = if name < other then g.common name other else 0 := by
  rw [shares, Tally.count_ofList, sharedBy, Tally.share_flatMap]
  simp only [sound.share_users]
  split
  next =>
    have huse : ∀ edge ∈ g.identityEdges name, min edge.2 (g.use other edge.1) =
        min (g.use name edge.1) (g.use other edge.1) := by
      rintro ⟨object, weight⟩ hedge
      rw [use_of_edgeWeight (sound.mem_identityEdges.mp hedge)]
    rw [List.map_congr_left huse, common, ← addUp_map_eq_of_subset
      (sound.nodup_identityEdges name) g.nodup_objects, List.map_map]
    · rfl
    · intro object hmem
      obtain ⟨⟨_, weight⟩, hedge, rfl⟩ := List.mem_map.mp hmem
      rw [mem_objects, sound.contains_iff]
      exact ⟨name, _, weight, sound.mem_identityEdges.mp hedge, .inr rfl⟩
    · intro object _ hnone
      have hzero : g.use name object = 0 := by
        by_contra hpositive
        obtain ⟨weight, hweight⟩ := sound.use_pos.mp (Nat.pos_of_ne_zero hpositive)
        exact hnone (List.mem_map_of_mem (sound.mem_identityEdges.mpr hweight))
      rw [hzero, Nat.zero_min]
  next =>
    apply addUp_eq_zero
    intro n hmem
    obtain ⟨_, -, rfl⟩ := List.mem_map.mp hmem
    rfl

section Draft

open SharingGraph (Draft)

def addPairs (d : Draft) (pairs : List ((Identity × Identity) × Weight)) : Draft :=
  pairs.foldl (fun draft (pair, weight) => draft.addLink pair.1 pair.2 weight) d

def pairsFrom (name : Identity) (entries : List (Identity × Weight)) :
    List ((Identity × Identity) × Weight) :=
  entries.map fun (other, weight) => ((name, other), weight)

def addShared (g : AccessGraph) (d : Draft) (name : Identity) : Draft :=
  addPairs (d.addVertex name) (pairsFrom name (g.shares name).entries)

theorem shareDraft_eq (g : AccessGraph) (names : List Identity) :
    g.shareDraft names = names.foldl g.addShared ∅ := by
  unfold shareDraft
  congr 1
  funext d name
  rw [addShared, addPairs, pairsFrom, List.foldl_map]

theorem made_addPairs {d : Draft} (made : d.Made) (pairs : List ((Identity × Identity) × Weight)) :
    (addPairs d pairs).Made := by
  induction pairs generalizing d with
  | nil => exact made
  | cons entry rest ih => exact ih (made.link entry.1.1 entry.1.2 entry.2)

theorem count_addPairs {d : Draft} {pairs : List ((Identity × Identity) × Weight)}
    (h : ∀ entry ∈ pairs, entry.1.1 < entry.1.2) (pair : Identity × Identity) :
    (addPairs d pairs).weights.count pair = d.weights.count pair + Tally.share pair pairs := by
  induction pairs generalizing d with
  | nil => simp [addPairs]
  | cons entry rest ih =>
    have hlt := h entry List.mem_cons_self
    have hne : entry.1.1 ≠ entry.1.2 := fun heq => String.lt_irrefl _ (heq ▸ hlt)
    have hpair : Draft.pairOf entry.1.1 entry.1.2 = entry.1 := if_neg (String.lt_asymm hlt)
    have hrest := @ih (d.addLink entry.1.1 entry.1.2 entry.2)
      fun other hmem => h other (List.mem_cons_of_mem _ hmem)
    rw [Draft.count_addLink, hpair] at hrest
    change (addPairs (d.addLink entry.1.1 entry.1.2 entry.2) rest).weights.count pair = _
    rw [hrest, Tally.share_cons]
    simp only [ne_eq, hne, not_false_eq_true, true_and, Std.compare_eq_iff_eq, Nat.add_assoc]

theorem mem_addPairs {d : Draft} {pairs : List ((Identity × Identity) × Weight)} {name : Identity}
    (h : name ∈ (addPairs d pairs).vertices) :
    name ∈ d.vertices ∨ ∃ entry ∈ pairs, name = entry.1.1 ∨ name = entry.1.2 := by
  induction pairs generalizing d with
  | nil => exact .inl h
  | cons entry rest ih =>
    rcases ih h with hbefore | ⟨other, hmem, hname⟩
    · rcases Draft.mem_addLink.mp hbefore with hold | ⟨-, hname⟩
      · exact .inl hold
      · exact .inr ⟨entry, List.mem_cons_self, hname⟩
    · exact .inr ⟨other, List.mem_cons_of_mem _ hmem, hname⟩

theorem mem_addPairs_of_mem {d : Draft} {name : Identity}
    (pairs : List ((Identity × Identity) × Weight)) (h : name ∈ d.vertices) :
    name ∈ (addPairs d pairs).vertices := by
  induction pairs generalizing d with
  | nil => exact h
  | cons entry rest ih => exact ih (Draft.mem_addLink.mpr (.inl h))

theorem share_pairsFrom (name first second : Identity) (entries : List (Identity × Weight)) :
    Tally.share (first, second) (pairsFrom name entries) =
      if name = first then Tally.share second entries else 0 := by
  induction entries with
  | nil => simp [pairsFrom]
  | cons entry rest ih =>
    rw [pairsFrom, List.map_cons, Tally.share_cons, ← pairsFrom, ih, Tally.share_cons]
    by_cases heq : name = first
    · simp [heq]
    · simp [heq]

theorem made_shareDraft (g : AccessGraph) (names : List Identity) : (g.shareDraft names).Made := by
  have hmade (d : Draft) (made : d.Made) : (names.foldl g.addShared d).Made := by
    induction names generalizing d with
    | nil => exact made
    | cons name rest ih => exact ih _ (made_addPairs (made.vertex name) _)
  rw [shareDraft_eq]
  exact hmade ∅ .empty

theorem Sound.count_addShared (sound : g.Sound) (d : Draft) (name first second : Identity) :
    (g.addShared d name).weights.count (first, second) = d.weights.count (first, second) +
      if name = first ∧ first < second then g.common first second else 0 := by
  -- only later names are listed, so each pair is counted from its earlier name
  have hafter : ∀ entry ∈ pairsFrom name (g.shares name).entries, entry.1.1 < entry.1.2 := by
    intro entry hentry
    obtain ⟨⟨other, weight⟩, hmem, rfl⟩ := List.mem_map.mp hentry
    obtain ⟨hweight, hpositive⟩ := Tally.mem_entries.mp hmem
    rw [sound.count_shares] at hweight
    by_contra hlt
    rw [if_neg hlt] at hweight
    omega
  have hvertex : (d.addVertex name).weights.count (first, second) =
      d.weights.count (first, second) := rfl
  rw [addShared, count_addPairs hafter, hvertex, share_pairsFrom, Tally.share_entries,
    sound.count_shares]
  by_cases heq : name = first
  · simp [heq]
  · simp [heq]

theorem Sound.count_foldl_addShared (sound : g.Sound) {names : List Identity}
    (hnodup : names.Nodup) (d : Draft) (first second : Identity) :
    (names.foldl g.addShared d).weights.count (first, second) = d.weights.count (first, second) +
      if first ∈ names ∧ first < second then g.common first second else 0 := by
  induction names generalizing d with
  | nil => simp
  | cons name rest ih =>
    obtain ⟨hnew, hrest⟩ := List.nodup_cons.mp hnodup
    rw [List.foldl_cons, ih hrest, sound.count_addShared]
    by_cases heq : name = first
    · subst heq
      simp [hnew]
    · simp [heq, Ne.symm heq]

theorem Sound.count_shareDraft (sound : g.Sound) {names : List Identity} (hnodup : names.Nodup)
    (first second : Identity) : (g.shareDraft names).weights.count (first, second) =
      if first ∈ names ∧ first < second then g.common first second else 0 := by
  have hzero : (∅ : Draft).weights.count (first, second) = 0 := Tally.count_empty _
  rw [shareDraft_eq, sound.count_foldl_addShared hnodup, hzero, Nat.zero_add]

theorem Sound.mem_addShared (sound : g.Sound) {d : Draft} {name other : Identity}
    (h : other ∈ (g.addShared d name).vertices) :
    other ∈ d.vertices ∨ other = name ∨ other ∈ g.identities := by
  rcases mem_addPairs h with hbefore | ⟨entry, hentry, hname⟩
  · rcases Draft.mem_addVertex.mp hbefore with hname | hold
    · exact .inr (.inl hname)
    · exact .inl hold
  · obtain ⟨⟨user, weight⟩, hmem, rfl⟩ := List.mem_map.mp hentry
    rcases hname with rfl | rfl
    · exact .inr (.inl rfl)
    obtain ⟨hweight, hpositive⟩ := Tally.mem_entries.mp hmem
    rw [sound.count_shares] at hweight
    split at hweight
    next =>
      exact .inr (.inr (sound.identities_of_common (hweight ▸ hpositive)).2)
    next => exact absurd hweight (Nat.ne_of_lt hpositive)

theorem Sound.mem_of_mem_foldl_addShared (sound : g.Sound) {names : List Identity} {d : Draft}
    {other : Identity} (h : other ∈ (names.foldl g.addShared d).vertices) :
    other ∈ d.vertices ∨ other ∈ names ∨ other ∈ g.identities := by
  induction names generalizing d with
  | nil => exact .inl h
  | cons name rest ih =>
    rcases ih h with hbefore | hrest | hgraph
    · rcases sound.mem_addShared hbefore with hold | rfl | hgraph
      · exact .inl hold
      · exact .inr (.inl List.mem_cons_self)
      · exact .inr (.inr hgraph)
    · exact .inr (.inl (List.mem_cons_of_mem _ hrest))
    · exact .inr (.inr hgraph)

theorem mem_foldl_addShared_of_mem {names : List Identity} {d : Draft} {other : Identity}
    (h : other ∈ names ∨ other ∈ d.vertices) :
    other ∈ (names.foldl g.addShared d).vertices := by
  induction names generalizing d with
  | nil => exact h.resolve_left List.not_mem_nil
  | cons name rest ih =>
    apply ih
    rcases h with hmem | hold
    · rcases List.mem_cons.mp hmem with rfl | hrest
      · exact .inr (mem_addPairs_of_mem _ (Draft.mem_addVertex.mpr (.inl rfl)))
      · exact .inl hrest
    · exact .inr (mem_addPairs_of_mem _ (Draft.mem_addVertex.mpr (.inr hold)))

theorem Sound.mem_shareDraft (sound : g.Sound) {name : Identity} :
    name ∈ (g.shareDraft g.identities).vertices ↔ name ∈ g.identities := by
  rw [shareDraft_eq]
  constructor
  · intro h
    rcases sound.mem_of_mem_foldl_addShared h with hempty | hmem | hmem
    · simp [show (∅ : Draft).vertices = ∅ from rfl] at hempty
    · exact hmem
    · exact hmem
  · intro h
    exact mem_foldl_addShared_of_mem (.inl h)

end Draft

/-- The projection has the identities as vertices in their order, and links each to every later
one that it has use in common with, by that use. -/
theorem Sound.project_eq_ok (sound : g.Sound) {shared : SharingGraph}
    (h : g.project = .ok shared) : shared.Built ∧
      (∀ name, name ∈ shared.vertices ↔ g.contains (.identity name)) ∧
      ∀ link, link ∈ shared.links ↔ ∃ first second, shared.vertices[link.left]? = some first ∧
        shared.vertices[link.right]? = some second ∧ first < second ∧
          g.common first second = link.weight ∧ 0 < link.weight := by
  have hmade := g.made_shareDraft g.identities
  obtain ⟨-, hvertices, -⟩ := SharingGraph.Draft.build_eq_ok.mp h
  have hnames : ∀ name, name ∈ (g.shareDraft g.identities).names ↔ name ∈ g.identities :=
    fun name => SharingGraph.Draft.mem_names.trans sound.mem_shareDraft
  refine ⟨⟨_, hmade, h⟩, ?_, ?_⟩
  · intro name
    rw [hvertices, List.mem_toArray, hnames, mem_identities]
  · intro link
    rw [hmade.sound.mem_links h, hvertices]
    simp only [List.getElem?_toArray, sound.count_shareDraft g.nodup_identities]
    constructor
    · rintro ⟨first, second, hleft, hright, hweight, hpositive⟩
      split at hweight
      next hlt => exact ⟨first, second, hleft, hright, hlt.2, hweight, hpositive⟩
      next => exact absurd hweight (Nat.ne_of_lt hpositive)
    · rintro ⟨first, second, hleft, hright, hlt, hweight, hpositive⟩
      have hmem := (hnames first).mp (List.mem_of_getElem? hleft)
      exact ⟨first, second, hleft, hright, (if_pos ⟨hmem, hlt⟩).trans hweight, hpositive⟩

end AccessGraph

end Cohort
