import Cohort.Proofs.AccessGraph.Histories
import Cohort.Proofs.AccessGraph.Spokes
import Mathlib.Data.List.Dedup

/-! The graph as a list. A register lists the pairs in use, oldest first, each with its weight, and
is all there is to know of a graph: counting and subtracting change the register of a graph in one
place, and the register answers every question that the graph answers. -/

namespace Cohort

structure Entry where
  key : EdgeKey
  name : Identity
  object : ObjectId
  weight : Weight
  positive : 0 < weight

namespace Entry

def pair (e : Entry) : Identity × ObjectId :=
  (e.name, e.object)

def touches (vertex : Vertex) (e : Entry) : Bool :=
  vertex = .identity e.name ∨ vertex = .object e.object

def gain (pair : Identity × ObjectId) (e : Entry) : Entry :=
  if e.pair = pair then { e with weight := e.weight + 1, positive := Nat.succ_pos _ } else e

def less (e : Entry) (amount : Nat) : Option Entry :=
  if h : amount < e.weight then
    some { e with weight := e.weight - amount, positive := Nat.sub_pos_of_lt h }
  else none

theorem touches_identity (e : Entry) (name : Identity) :
    e.touches (.identity name) = decide (e.name = name) := by
  simp [touches, eq_comm]

theorem touches_object (e : Entry) (object : ObjectId) :
    e.touches (.object object) = decide (e.object = object) := by
  simp [touches, eq_comm]

@[simp] theorem key_gain (pair : Identity × ObjectId) (e : Entry) : (e.gain pair).key = e.key := by
  unfold gain
  split <;> rfl

@[simp] theorem pair_gain (pair : Identity × ObjectId) (e : Entry) :
    (e.gain pair).pair = e.pair := by
  unfold gain
  split <;> rfl

@[simp] theorem touches_gain (pair : Identity × ObjectId) (e : Entry) (vertex : Vertex) :
    (e.gain pair).touches vertex = e.touches vertex := by
  unfold gain
  split <;> rfl

theorem weight_gain (pair : Identity × ObjectId) (e : Entry) :
    (e.gain pair).weight = if e.pair = pair then e.weight + 1 else e.weight := by
  unfold gain
  split <;> rfl

theorem less_eq_some {e rest : Entry} {amount : Nat} (h : e.less amount = some rest) :
    amount < e.weight ∧ rest.weight = e.weight - amount ∧ rest.key = e.key ∧
      rest.pair = e.pair ∧ ∀ vertex, rest.touches vertex = e.touches vertex := by
  unfold less at h
  split at h
  next hless =>
    cases h
    exact ⟨hless, rfl, rfl, rfl, fun _ => rfl⟩
  next => cases h

theorem less_eq_none {e : Entry} {amount : Nat} : e.less amount = none ↔ ¬ amount < e.weight := by
  simp [less]

theorem map_key_less (e : Entry) (amount : Nat) :
    (e.less amount).map (·.key) = if amount < e.weight then some e.key else none := by
  unfold less
  split <;> rfl

end Entry

/-- Pairs in use, oldest first. -/
abbrev Register := List Entry

namespace Register

def at? (r : Register) (name : Identity) (object : ObjectId) : Option Entry :=
  r.find? (·.pair = (name, object))

def under? (r : Register) (key : EdgeKey) : Option Entry :=
  r.find? (·.key = key)

/-- Count an access: a pair in use gains one unit where it stands, and a new pair comes last, with
one unit and under the given key. -/
def increment (r : Register) (key : EdgeKey) (name : Identity) (object : ObjectId) : Register :=
  if (r.at? name object).isSome then
    r.map (·.gain (name, object))
  else r ++ [⟨key, name, object, 1, Nat.one_pos⟩]

def decay (r : Register) (key : EdgeKey) (amount : Nat) : Register :=
  r.filterMap fun e => if e.key = key then e.less amount else some e

/-- How many of the two ends of an entry are an end of no entry of the register. -/
def orphans (r : Register) (e : Entry) : Nat :=
  (if r.any (·.touches (.identity e.name)) then 0 else 1) +
    if r.any (·.touches (.object e.object)) then 0 else 1

def answer (r : Register) (key : EdgeKey) (amount : Nat) : Decay :=
  match r.under? key with
  | none => .missing
  | some e =>
    if amount < e.weight then .decremented (e.weight - amount)
    else .removed ((r.decay key amount).orphans e)

def names (r : Register) : List Identity :=
  (r.map (·.name)).dedup

def objects (r : Register) : List ObjectId :=
  (r.map (·.object)).dedup

def vertices (r : Register) : List Vertex :=
  r.names.map .identity ++ r.objects.map .object

def follow (r : Register) (g : AccessGraph) : Change → Register
  | .increment name object => r.increment (g.increment name object).1 name object
  | .decay key amount => r.decay key amount

variable {r : Register}

theorem find?_eq_some_of_unique {p : Entry → Bool} {e : Entry} (he : e ∈ r) (hp : p e)
    (h : ∀ f ∈ r, p f → f = e) : r.find? p = some e := by
  cases hfound : r.find? p with
  | none => exact absurd hp (List.find?_eq_none.mp hfound e he)
  | some f => rw [h f (List.mem_of_find?_eq_some hfound) (List.find?_some hfound)]

theorem under?_eq_none {key : EdgeKey} : r.under? key = none ↔ ∀ e ∈ r, e.key ≠ key := by
  simp [under?]

theorem at?_eq_none {name : Identity} {object : ObjectId} :
    r.at? name object = none ↔ ∀ e ∈ r, e.pair ≠ (name, object) := by
  simp [at?]

theorem mem_decay {key : EdgeKey} {amount : Nat} {rest : Entry} :
    rest ∈ r.decay key amount ↔
      ∃ e ∈ r, (if e.key = key then e.less amount else some e) = some rest :=
  List.mem_filterMap

theorem filter_touches_decay (key : EdgeKey) (amount : Nat) (vertex : Vertex) :
    (r.decay key amount).filter (·.touches vertex) =
      decay (r.filter (·.touches vertex)) key amount := by
  rw [decay, decay, List.filter_filterMap, List.filterMap_filter]
  apply List.filterMap_congr
  intro e _
  split
  next =>
    cases hless : e.less amount with
    | none => simp
    | some rest =>
      rw [Option.filter_some, (Entry.less_eq_some hless).2.2.2.2]
  next => rw [Option.filter_some]

theorem map_key_decay (key : EdgeKey) (amount : Nat) :
    (r.decay key amount).map (·.key) =
      (r.filter fun e => e.key ≠ key ∨ amount < e.weight).map (·.key) := by
  rw [decay, List.map_filterMap, ← List.filterMap_eq_map', List.filterMap_filter]
  apply List.filterMap_congr
  intro e _
  split
  next hkey => simp [Entry.map_key_less, hkey]
  next hkey => simp [hkey]

end Register

namespace AccessGraph

open Register

variable {g : AccessGraph} {r : Register}

structure Tells (g : AccessGraph) (r : Register) : Prop where
  sound : g.Sound
  ends : ∀ e ∈ r, g.ends? e.key = some e.pair
  weight : ∀ e ∈ r, g.weightOf e.key = some e.weight
  live : ∀ key weight, g.weightOf key = some weight → ∃ e ∈ r, e.key = key
  nodup : (r.map (·.key)).Nodup
  spokes : ∀ vertex, g.spokes vertex = (r.filter (·.touches vertex)).map (·.key)

theorem tells_empty : Tells ∅ [] where
  sound := sound_empty
  ends := nofun
  weight := nofun
  live := nofun
  nodup := List.nodup_nil
  spokes vertex := by
    refine sound_empty.spokes_of_absent fun key hkey => ?_
    cases hkey

section Lookup

theorem Tells.key_eq_of_pair (tells : g.Tells r) {e : Entry} (he : e ∈ r) {key : EdgeKey}
    {pair : Identity × ObjectId} (h : g.ends? key = some pair) : e.pair = pair ↔ e.key = key := by
  have hends := tells.ends e he
  constructor
  · rintro rfl
    exact tells.sound.ends?_unique hends h
  · rintro rfl
    exact Option.some.inj (hends.symm.trans h)

theorem Tells.entry_unique (tells : g.Tells r) {e f : Entry} (he : e ∈ r) (hf : f ∈ r)
    (h : e.key = f.key) : e = f :=
  List.inj_on_of_nodup_map tells.nodup he hf h

theorem Tells.under?_eq_some (tells : g.Tells r) {key : EdgeKey} {e : Entry} :
    r.under? key = some e ↔ e ∈ r ∧ e.key = key := by
  constructor
  · intro h
    exact ⟨List.mem_of_find?_eq_some h, by simpa using List.find?_some h⟩
  · rintro ⟨he, rfl⟩
    refine find?_eq_some_of_unique he (by simp) fun f hf hkey => ?_
    exact tells.entry_unique hf he (by simpa using hkey)

theorem Tells.at?_eq_some (tells : g.Tells r) {name : Identity} {object : ObjectId} {e : Entry} :
    r.at? name object = some e ↔ e ∈ r ∧ e.pair = (name, object) := by
  constructor
  · intro h
    exact ⟨List.mem_of_find?_eq_some h, by simpa using List.find?_some h⟩
  · rintro ⟨he, hpair⟩
    refine find?_eq_some_of_unique he (by simpa using hpair) fun f hf hsame => ?_
    have hends := tells.ends e he
    rw [hpair] at hends
    exact tells.entry_unique hf he ((tells.key_eq_of_pair hf hends).mp (by simpa using hsame))

theorem Tells.key_of_at? (tells : g.Tells r) {name : Identity} {object : ObjectId} {e : Entry}
    (h : r.at? name object = some e) : g.ends? e.key = some (name, object) := by
  obtain ⟨he, hpair⟩ := tells.at?_eq_some.mp h
  rw [tells.ends e he, hpair]

end Lookup

section Increment

variable (name : Identity) (object : ObjectId)

/-- Counting gives out the key of the entry of the pair, or one that no entry has. -/
theorem Tells.increment_fst (tells : g.Tells r) :
    match r.at? name object with
    | some e => (g.increment name object).1 = e.key
    | none => ∀ e ∈ r, e.key ≠ (g.increment name object).1 := by
  have hown := tells.sound.ends?_increment name object (g.increment name object).1
  rw [if_pos rfl] at hown
  split
  next e hat =>
    have hends := tells.sound.ends?_increment name object e.key
    rw [tells.key_of_at? hat, ite_self] at hends
    exact (tells.sound.increment name object).ends?_unique hown hends
  next hat =>
    intro e he hkey
    have hends := tells.ends e he
    rcases tells.sound.ends?_increment_fst name object with hpair | hnone
    · rw [hkey, hpair] at hends
      exact at?_eq_none.mp hat e he (Option.some.inj hends).symm
    · rw [hkey, hnone] at hends
      cases hends

theorem Tells.increment_of_some (tells : g.Tells r) {known : Entry}
    (h : r.at? name object = some known) :
    Tells (g.increment name object).2 (r.map (·.gain (name, object))) := by
  have hfirst := tells.increment_fst name object
  rw [h] at hfirst
  have hends := tells.key_of_at? h
  -- the entry that gains is the one under the key that is given out
  have hkey : ∀ e ∈ r, e.pair = (name, object) ↔ e.key = (g.increment name object).1 :=
    fun e he => by rw [hfirst, tells.key_eq_of_pair he hends]
  refine { sound := tells.sound.increment name object, ends := ?_, weight := ?_, live := ?_,
           nodup := ?_, spokes := ?_ }
  · simp only [List.forall_mem_map, Entry.key_gain, Entry.pair_gain,
      tells.sound.ends?_increment]
    intro e he
    split
    next hown => rw [(hkey e he).mpr hown]
    next => exact tells.ends e he
  · simp only [List.forall_mem_map, Entry.key_gain, Entry.weight_gain,
      tells.sound.weightOf_increment]
    intro e he
    rw [tells.weight e he, Option.getD_some]
    simp only [hkey e he]
    split <;> rfl
  · intro key weight hweight
    simp only [List.mem_map, exists_exists_and_eq_and, Entry.key_gain]
    rw [tells.sound.weightOf_increment] at hweight
    split at hweight
    next hown => exact ⟨known, (tells.at?_eq_some.mp h).1, by rw [hown, hfirst]⟩
    next => exact tells.live key weight hweight
  · rw [List.map_map]
    exact (congrArg List.Nodup (List.map_congr_left fun e _ => Entry.key_gain _ e)).mpr tells.nodup
  · intro vertex
    have hold : ¬ g.ends? (g.increment name object).1 = none := by
      rw [hfirst, hends]
      exact Option.some_ne_none _
    rw [tells.sound.spokes_increment, if_neg fun hnew => hold hnew.1, tells.spokes,
      List.filter_map, List.map_map]
    simp [Function.comp_def]

theorem Tells.increment_of_none (tells : g.Tells r) (h : r.at? name object = none) :
    Tells (g.increment name object).2
      (r ++ [⟨(g.increment name object).1, name, object, 1, Nat.one_pos⟩]) := by
  have hfresh := tells.increment_fst name object
  rw [h] at hfresh
  have hgone : g.weightOf (g.increment name object).1 = none := by
    by_contra hlive
    obtain ⟨weight, hweight⟩ := Option.ne_none_iff_exists'.mp hlive
    obtain ⟨e, he, hkey⟩ := tells.live _ weight hweight
    exact hfresh e he hkey
  have hnew : g.ends? (g.increment name object).1 = none := tells.sound.ends?_eq_none.mpr hgone
  refine { sound := tells.sound.increment name object, ends := ?_, weight := ?_, live := ?_,
           nodup := ?_, spokes := ?_ }
  · rw [List.forall_mem_append, List.forall_mem_singleton]
    refine ⟨fun e he => ?_, ?_⟩
    · rw [tells.sound.ends?_increment, if_neg (hfresh e he), tells.ends e he]
    · rw [tells.sound.ends?_increment, if_pos rfl]
      rfl
  · rw [List.forall_mem_append, List.forall_mem_singleton]
    refine ⟨fun e he => ?_, ?_⟩
    · rw [tells.sound.weightOf_increment, if_neg (hfresh e he), tells.weight e he]
    · rw [tells.sound.weightOf_increment, if_pos rfl, hgone]
      rfl
  · intro key weight hweight
    rw [tells.sound.weightOf_increment] at hweight
    split at hweight
    next hown => exact ⟨_, List.mem_append_right _ List.mem_cons_self, hown.symm⟩
    next =>
      obtain ⟨e, he, hkey⟩ := tells.live key weight hweight
      exact ⟨e, List.mem_append_left _ he, hkey⟩
  · rw [List.map_append, List.map_singleton, List.nodup_append]
    refine ⟨tells.nodup, List.nodup_singleton _, ?_⟩
    simpa using hfresh
  · intro vertex
    rw [tells.sound.spokes_increment, tells.spokes, List.filter_append, List.map_append]
    simp only [hnew, true_and, List.filter_singleton, Entry.touches]
    split
    next hend => simp [hend]
    next hother => simp [hother]

theorem Tells.increment (tells : g.Tells r) :
    Tells (g.increment name object).2 (r.increment (g.increment name object).1 name object) := by
  unfold Register.increment
  cases h : r.at? name object with
  | some known => exact tells.increment_of_some name object h
  | none => exact tells.increment_of_none name object h

end Increment

section Decay

variable (key : EdgeKey) (amount : Nat)

theorem Tells.weightOf_decay (tells : g.Tells r) {e : Entry} (he : e ∈ r) :
    (g.decay key amount).2.weightOf e.key =
      (if e.key = key then e.less amount else some e).map (·.weight) := by
  rw [AccessGraph.weightOf_decay]
  have hweight := tells.weight e he
  split
  next hkey =>
    rw [← hkey, hweight, Option.bind_some]
    unfold Entry.less
    split <;> rfl
  next => rw [hweight, Option.map_some]

theorem Tells.mem_decay (tells : g.Tells r) {rest : Entry} (h : rest ∈ r.decay key amount) :
    ∃ e ∈ r, rest.key = e.key ∧ rest.pair = e.pair ∧
      (g.decay key amount).2.weightOf e.key = some rest.weight := by
  obtain ⟨e, he, hrest⟩ := Register.mem_decay.mp h
  have hweight := tells.weightOf_decay key amount he
  rw [hrest, Option.map_some] at hweight
  split at hrest
  next =>
    obtain ⟨-, -, hkey, hpair, -⟩ := Entry.less_eq_some hrest
    exact ⟨e, he, hkey, hpair, hweight⟩
  next =>
    cases hrest
    exact ⟨rest, he, rfl, rfl, hweight⟩

theorem Tells.map_key_decay (tells : g.Tells r) {part : Register} (h : part ⊆ r) :
    (part.decay key amount).map (·.key) =
      if (g.decay key amount).2.weightOf key = none then (part.map (·.key)).filter (· ≠ key)
      else part.map (·.key) := by
  have hgone : ∀ e ∈ part, e.key = key →
      ((g.decay key amount).2.weightOf key = none ↔ ¬ amount < e.weight) := by
    rintro e he rfl
    rw [tells.weightOf_decay _ amount (h he), if_pos rfl, Option.map_eq_none_iff,
      Entry.less_eq_none]
  rw [Register.map_key_decay, List.filter_map]
  split
  next hnone =>
    congr 1
    apply List.filter_congr
    intro e he
    have hused := hgone e he
    simp only [hnone, true_iff] at hused
    by_cases hkey : e.key = key
    · simp [hkey, hused hkey]
    · simp [hkey]
  next hlive =>
    congr 1
    apply List.filter_eq_self.mpr
    intro e he
    have hused := hgone e he
    simp only [hlive, false_iff, not_not] at hused
    by_cases hkey : e.key = key
    · simp [hused hkey]
    · simp [hkey]

theorem Tells.decay (tells : g.Tells r) :
    Tells (g.decay key amount).2 (r.decay key amount) := by
  refine { sound := tells.sound.decay key amount, ends := ?_, weight := ?_, live := ?_,
           nodup := ?_, spokes := ?_ }
  · intro rest hrest
    obtain ⟨e, he, hkey, hpair, hweight⟩ := tells.mem_decay key amount hrest
    rw [hkey, hpair, tells.sound.ends?_decay, hweight, if_neg (Option.some_ne_none _),
      tells.ends e he]
  · intro rest hrest
    obtain ⟨e, he, hkey, -, hweight⟩ := tells.mem_decay key amount hrest
    rw [hkey, hweight]
  · -- a key that still has a weight has had one, so its entry is there and something is left of it
    intro other weight hweight
    obtain ⟨before, hbefore⟩ := weightOf_of_decay hweight
    obtain ⟨e, he, rfl⟩ := tells.live other before hbefore
    rw [tells.weightOf_decay key amount he, Option.map_eq_some_iff] at hweight
    obtain ⟨rest, hrest, -⟩ := hweight
    refine ⟨rest, Register.mem_decay.mpr ⟨e, he, hrest⟩, ?_⟩
    split at hrest
    next => exact (Entry.less_eq_some hrest).2.2.1
    next =>
      cases hrest
      rfl
  · rw [Register.map_key_decay]
    exact tells.nodup.sublist (List.filter_sublist.map _)
  · intro vertex
    rw [tells.sound.spokes_decay, tells.spokes, filter_touches_decay]
    exact (tells.map_key_decay key amount (List.filter_subset_self r)).symm

end Decay

section Vertices

theorem vertexList_eq (g : AccessGraph) : g.vertexList = g.hubs.keys.filterMap g.vertexAt := by
  rw [AccessGraph.vertexList, Arena.values_eq, List.map_filterMap]
  rfl

theorem Placed.nodup_vertexList (placed : g.Placed) : g.vertexList.Nodup := by
  rw [vertexList_eq, List.Nodup, List.pairwise_filterMap]
  refine g.hubs.nodup_keys.imp fun hne vertex hleft other hright heq => ?_
  exact hne (placed.key_unique hleft (heq ▸ hright))

theorem Placed.mem_vertexList (placed : g.Placed) {vertex : Vertex} :
    vertex ∈ g.vertexList ↔ g.contains vertex := by
  rw [placed.contains_iff_vertexAt, vertexList_eq, List.mem_filterMap]
  refine exists_congr fun key => ⟨And.right, fun h => ⟨?_, h⟩⟩
  obtain ⟨hub, hhub, -⟩ := vertexAt_eq_some.mp h
  exact Arena.mem_keys.mpr ⟨hub, hhub⟩

theorem nodup_vertices {names : List Identity} {objects : List ObjectId} (hnames : names.Nodup)
    (hobjects : objects.Nodup) :
    (names.map Vertex.identity ++ objects.map Vertex.object).Nodup := by
  refine List.nodup_append.mpr ⟨hnames.map fun _ _ h => Vertex.identity.inj h,
    hobjects.map fun _ _ h => Vertex.object.inj h, ?_⟩
  intro vertex hname other hobject
  obtain ⟨name, -, rfl⟩ := List.mem_map.mp hname
  obtain ⟨object, -, rfl⟩ := List.mem_map.mp hobject
  exact Vertex.noConfusion

theorem Placed.vertexList_perm (placed : g.Placed) :
    g.vertexList.Perm (g.identities.map .identity ++ g.objects.map .object) := by
  rw [List.perm_ext_iff_of_nodup placed.nodup_vertexList
    (nodup_vertices g.nodup_identities g.nodup_objects)]
  intro vertex
  rw [placed.mem_vertexList, List.mem_append, List.mem_map, List.mem_map]
  cases vertex with
  | identity name => simp [mem_identities]
  | object object => simp [mem_objects]

end Vertices

section Answers

/-- No pair and no key has two entries, and every question to a graph is answered from them. -/
structure Answers (g : AccessGraph) (r : Register) : Prop where
  pairs : (r.map (·.pair)).Nodup
  keys : (r.map (·.key)).Nodup
  edgeWeight : ∀ name object, g.edgeWeight name object = (r.at? name object).map (·.weight)
  weightOf : ∀ key, g.weightOf key = (r.under? key).map (·.weight)
  identityEdges : ∀ name, g.identityEdges name =
    (r.filter (·.name = name)).map fun e => (e.object, e.weight)
  objectEdges : ∀ object, g.objectEdges object =
    (r.filter (·.object = object)).map fun e => (e.name, e.weight)
  edgeList : g.edgeList.Perm (r.map fun e => (e.name, e.object, e.weight))
  vertexList : g.vertexList.Perm r.vertices
  identities : g.identities.Perm r.names
  objects : g.objects.Perm r.objects
  contains : ∀ vertex, g.contains vertex = r.any (·.touches vertex)
  degree : ∀ vertex, g.degree vertex = r.countP (·.touches vertex)
  identityCount : g.identityCount = r.names.length
  objectCount : g.objectCount = r.objects.length
  vertexCount : g.vertexCount = r.vertices.length
  edgeCount : g.edgeCount = r.length
  isEmpty : g.isEmpty = r.isEmpty

theorem Tells.nodup_pairs (tells : g.Tells r) : (r.map (·.pair)).Nodup := by
  rw [List.Nodup, List.pairwise_map]
  refine (List.pairwise_map.mp tells.nodup).imp_of_mem fun {e f} he hf hne hpair => hne ?_
  exact tells.sound.ends?_unique (tells.ends e he) (hpair ▸ tells.ends f hf)

theorem Tells.weightOf (tells : g.Tells r) (key : EdgeKey) :
    g.weightOf key = (r.under? key).map (·.weight) := by
  cases h : r.under? key with
  | some e =>
    obtain ⟨he, rfl⟩ := tells.under?_eq_some.mp h
    rw [tells.weight e he, Option.map_some]
  | none =>
    by_contra hlive
    obtain ⟨weight, hweight⟩ := Option.ne_none_iff_exists'.mp hlive
    obtain ⟨e, he, hkey⟩ := tells.live key weight hweight
    exact under?_eq_none.mp h e he hkey

theorem Tells.entry_of_ends? (tells : g.Tells r) {key : EdgeKey} {pair : Identity × ObjectId}
    (h : g.ends? key = some pair) : ∃ e ∈ r, e.key = key ∧ e.pair = pair := by
  obtain ⟨weight, hweight, -⟩ := tells.sound.weight_of_ends? h
  obtain ⟨e, he, hkey⟩ := tells.live key weight hweight
  exact ⟨e, he, hkey, (tells.key_eq_of_pair he h).mpr hkey⟩

theorem Tells.edgeWeight (tells : g.Tells r) (name : Identity) (object : ObjectId) :
    g.edgeWeight name object = (r.at? name object).map (·.weight) := by
  cases h : r.at? name object with
  | some e =>
    have he := (tells.at?_eq_some.mp h).1
    exact tells.sound.edgeWeight_eq_some.mpr ⟨e.key, tells.key_of_at? h, tells.weight e he⟩
  | none =>
    refine tells.sound.edgeWeight_eq_none.mpr fun key hends => ?_
    obtain ⟨e, he, -, hpair⟩ := tells.entry_of_ends? hends
    exact at?_eq_none.mp h e he hpair

/-- The edges at a vertex are its entries, in the same order. -/
theorem Tells.filterMap_spokes (tells : g.Tells r) {α : Type} {vertex : Vertex}
    {pair : α → Identity × ObjectId} {read : EdgeKey → Option (α × Weight)}
    (reads : g.Reads vertex pair read) {other : Entry → α}
    (hpair : ∀ e ∈ r, e.touches vertex → pair (other e) = e.pair) :
    (g.spokes vertex).filterMap read =
      (r.filter (·.touches vertex)).map fun e => (other e, e.weight) := by
  rw [tells.spokes, List.filterMap_map, List.filterMap_eq_map_iff_forall_eq_some]
  intro e he
  have hspoke : e.key ∈ g.spokes vertex := by
    rw [tells.spokes]
    exact List.mem_map_of_mem he
  obtain ⟨hmem, htouch⟩ := List.mem_filter.mp he
  rw [Function.comp_apply, reads.read e.key hspoke, hpair e hmem htouch]
  exact ⟨tells.ends e hmem, tells.weight e hmem⟩

theorem Tells.identityEdges (tells : g.Tells r) (name : Identity) :
    g.identityEdges name = (r.filter (·.name = name)).map fun e => (e.object, e.weight) := by
  simp only [← Entry.touches_identity]
  rw [identityEdges_eq]
  refine tells.filterMap_spokes (tells.sound.reads_identity name) fun e _ htouch => ?_
  rw [Entry.touches_identity, decide_eq_true_eq] at htouch
  rw [← htouch]
  rfl

theorem Tells.objectEdges (tells : g.Tells r) (object : ObjectId) :
    g.objectEdges object = (r.filter (·.object = object)).map fun e => (e.name, e.weight) := by
  simp only [← Entry.touches_object]
  rw [objectEdges_eq]
  refine tells.filterMap_spokes (tells.sound.reads_object object) fun e _ htouch => ?_
  rw [Entry.touches_object, decide_eq_true_eq] at htouch
  rw [← htouch]
  rfl

theorem Tells.keys_perm (tells : g.Tells r) : g.edges.keys.Perm (r.map (·.key)) := by
  rw [List.perm_ext_iff_of_nodup g.edges.nodup_keys tells.nodup]
  intro key
  rw [Arena.mem_keys, List.mem_map]
  constructor
  · rintro ⟨edge, hedge⟩
    exact tells.live key edge.weight (weightOf_eq_some.mpr ⟨edge, hedge, rfl⟩)
  · rintro ⟨e, he, rfl⟩
    obtain ⟨edge, hedge, -⟩ := weightOf_eq_some.mp (tells.weight e he)
    exact ⟨edge, hedge⟩

theorem Tells.edgeList (tells : g.Tells r) :
    g.edgeList.Perm (r.map fun e => (e.name, e.object, e.weight)) := by
  rw [AccessGraph.edgeList, Arena.values_eq, List.filterMap_filterMap]
  refine (tells.keys_perm.filterMap _).trans (List.Perm.of_eq ?_)
  rw [List.filterMap_map, List.filterMap_eq_map_iff_forall_eq_some]
  intro e he
  obtain ⟨edge, hedge, hname, hobject⟩ := ends?_eq_some.mp (tells.ends e he)
  obtain ⟨other, hother, hweight⟩ := weightOf_eq_some.mp (tells.weight e he)
  cases hedge.symm.trans hother
  simp [hedge, nameOf_eq_some.mpr hname, objectOf_eq_some.mpr hobject, hweight]

theorem Tells.contains (tells : g.Tells r) (vertex : Vertex) :
    g.contains vertex = r.any (·.touches vertex) := by
  rw [Bool.eq_iff_iff, tells.sound.contains_iff_spokes, tells.spokes]
  simp

theorem Tells.degree (tells : g.Tells r) (vertex : Vertex) :
    g.degree vertex = r.countP (·.touches vertex) := by
  rw [degree_eq, tells.spokes, List.length_map, List.countP_eq_length_filter]

theorem Tells.identities (tells : g.Tells r) : g.identities.Perm r.names := by
  rw [Register.names, List.perm_ext_iff_of_nodup g.nodup_identities (List.nodup_dedup _)]
  intro name
  rw [mem_identities, tells.contains, List.any_eq_true, List.mem_dedup, List.mem_map]
  simp [Entry.touches_identity]

theorem Tells.objects (tells : g.Tells r) : g.objects.Perm r.objects := by
  rw [Register.objects, List.perm_ext_iff_of_nodup g.nodup_objects (List.nodup_dedup _)]
  intro object
  rw [mem_objects, tells.contains, List.any_eq_true, List.mem_dedup, List.mem_map]
  simp [Entry.touches_object]

theorem Tells.vertexList (tells : g.Tells r) : g.vertexList.Perm r.vertices :=
  tells.sound.vertexList_perm.trans ((tells.identities.map _).append (tells.objects.map _))

theorem Tells.vertexCount (tells : g.Tells r) : g.vertexCount = r.vertices.length := by
  rw [← tells.vertexList.length_eq, AccessGraph.vertexList, List.length_map, Arena.length_values]
  exact tells.sound.hubs.size_eq

theorem Tells.edgeCount (tells : g.Tells r) : g.edgeCount = r.length := by
  rw [AccessGraph.edgeCount, tells.sound.edges.size_eq, ← Arena.length_keys,
    tells.keys_perm.length_eq, List.length_map]

theorem Tells.isEmpty (tells : g.Tells r) : g.isEmpty = r.isEmpty := by
  rw [AccessGraph.isEmpty, tells.vertexCount, Bool.eq_iff_iff]
  simp [Register.vertices, Register.names, Register.objects]

theorem Tells.answers (tells : g.Tells r) : g.Answers r where
  pairs := tells.nodup_pairs
  keys := tells.nodup
  edgeWeight := tells.edgeWeight
  weightOf := tells.weightOf
  identityEdges := tells.identityEdges
  objectEdges := tells.objectEdges
  edgeList := tells.edgeList
  vertexList := tells.vertexList
  identities := tells.identities
  objects := tells.objects
  contains := tells.contains
  degree := tells.degree
  identityCount := tells.identities.length_eq
  objectCount := tells.objects.length_eq
  vertexCount := tells.vertexCount
  edgeCount := tells.edgeCount
  isEmpty := tells.isEmpty

/-- What subtracting says: the ends that are gone are those of no other entry. -/
theorem Tells.decay_fst (tells : g.Tells r) (key : EdgeKey) (amount : Nat) :
    (g.decay key amount).1 = r.answer key amount := by
  unfold Register.answer
  have hweight := tells.weightOf key
  cases h : r.under? key with
  | none =>
    rw [h, Option.map_none] at hweight
    rw [decay_of_weightOf_eq_none hweight]
  | some e =>
    rw [h, Option.map_some] at hweight
    obtain ⟨he, rfl⟩ := tells.under?_eq_some.mp h
    dsimp only
    split
    next hless =>
      rcases decay_cases (g := g) e.key amount with ⟨hnone, -⟩ | ⟨weight, hsome, -, heq⟩ |
        ⟨edge, -, hedge, hle, -⟩
      · cases hweight.symm.trans hnone
      · cases hweight.symm.trans hsome
        rw [heq]
      · obtain ⟨other, hother, hsame⟩ := weightOf_eq_some.mp hweight
        obtain rfl := Option.some.inj (hedge.symm.trans hother)
        exact absurd (hsame ▸ hless) (Nat.not_lt.mpr hle)
    next hused =>
      have hcontains := (tells.decay e.key amount).contains
      rw [tells.sound.decay_fst_of_le (tells.ends e he) hweight (Nat.le_of_not_lt hused)]
      simp only [hcontains, Register.orphans]

end Answers

def followed (history : List Change) : AccessGraph × Register :=
  history.foldl (fun (g, r) c => (g.change c, Register.follow r g c)) (∅, [])

def registered (history : List Change) : Register :=
  (followed history).2

theorem followed_concat (history : List Change) (c : Change) :
    followed (history ++ [c]) =
      ((followed history).1.change c, (followed history).2.follow (followed history).1 c) :=
  List.foldl_concat ..

theorem followed_fst (history : List Change) : (followed history).1 = after history := by
  induction history using List.reverseRecOn with
  | nil => rfl
  | append_singleton history c ih => rw [followed_concat, after_concat, ih]

@[simp] theorem registered_nil : registered [] = [] :=
  rfl

@[simp] theorem registered_concat (history : List Change) (c : Change) :
    registered (history ++ [c]) = (registered history).follow (after history) c := by
  rw [registered, followed_concat, followed_fst, registered]

theorem Tells.follow (tells : g.Tells r) (c : Change) : Tells (g.change c) (r.follow g c) := by
  cases c with
  | increment name object => exact tells.increment name object
  | decay key amount => exact tells.decay key amount

theorem tells_registered (history : List Change) : Tells (after history) (registered history) := by
  induction history using List.reverseRecOn with
  | nil => exact tells_empty
  | append_singleton history c ih =>
    rw [after_concat, registered_concat]
    exact ih.follow c

/-- After any history the register answers every question to the graph, and tells what the next
access and the next subtraction do. -/
theorem register_answers (history : List Change) :
    (after history).Answers (registered history) ∧
    (∀ name object, match (registered history).at? name object with
      | some e => ((after history).increment name object).1 = e.key
      | none => ∀ e ∈ registered history, e.key ≠ ((after history).increment name object).1) ∧
    ∀ key amount, ((after history).decay key amount).1 =
      (registered history).answer key amount :=
  have tells := tells_registered history
  ⟨tells.answers, tells.increment_fst, tells.decay_fst⟩

end AccessGraph

end Cohort
