import Cohort.Proofs.AccessGraph.Histories
import Cohort.Proofs.Projection
import Cohort.Proofs.Words
import Mathlib.Data.List.Sort

/-! The projection as a walk over the graph, from each identity over its objects to their users.
Every pair is met from both ends, and a record of what was counted keeps it from being counted
twice. However identities, objects and pairs are enumerated, the walk ends at the same graph. -/

namespace Cohort

namespace AccessGraph

open SharingGraph (Draft)

structure Meeting where
  own : Identity
  other : Identity
  object : ObjectId
  least : Weight

namespace Meeting

def path (m : Meeting) : (Identity × Identity) × ObjectId :=
  (Draft.pairOf m.own m.other, m.object)

end Meeting

def meetingsOf (g : AccessGraph) (own : Identity) : List Meeting :=
  (g.identityEdges own).flatMap fun (object, use) =>
    (g.objectEdges object).map fun (other, otherUse) => ⟨own, other, object, min use otherUse⟩

def meetings (g : AccessGraph) (names : List Identity) : List Meeting :=
  names.flatMap g.meetingsOf

/-- The paths counted so far, and how much they make for each pair. -/
structure Walk where
  seen : Std.ExtTreeSet ((Identity × Identity) × ObjectId)
  weights : Tally (Identity × Identity)

namespace Walk

instance : EmptyCollection Walk := ⟨∅, ∅⟩

def take (walk : Walk) (m : Meeting) : Walk where
  seen := walk.seen.insert m.path
  weights := walk.weights.add m.path.1 m.least

def meet (walk : Walk) (m : Meeting) : Walk :=
  if m.other = m.own then walk
  else if m.path ∈ walk.seen then walk
  else walk.take m

def takeInWord (walk : Walk) (m : Meeting) : Except Overflow Walk := do
  let weights ← walk.weights.addInWord (m.path.1, m.least)
  return { walk.take m with weights }

def meetInWord (walk : Walk) (m : Meeting) : Except Overflow Walk :=
  if m.other = m.own then .ok walk
  else if m.path ∈ walk.seen then .ok walk
  else walk.takeInWord m

end Walk

def walk (g : AccessGraph) (names : List Identity) : Walk :=
  (g.meetings names).foldl Walk.meet ∅

def walkInWords (g : AccessGraph) (names : List Identity) : Except Overflow Walk :=
  (g.meetings names).foldlM Walk.meetInWord ∅

def draftOf (names : List Identity) (pairs : List ((Identity × Identity) × Weight)) : Draft :=
  addPairs (names.foldl Draft.addVertex ∅) pairs

/-- Orders in which a graph may be enumerated: the identities as vertices and on the walk, and the
pairs with their weights after it. -/
structure Orders (g : AccessGraph) where
  vertices : List Identity
  names : List Identity
  pairs : List ((Identity × Identity) × Weight)
  vertices_perm : vertices.Perm g.identities
  names_perm : names.Perm g.identities
  pairs_perm : pairs.Perm (g.walk names).weights.entries

instance (g : AccessGraph) : Inhabited (Orders g) :=
  ⟨⟨g.identities, g.identities, _, .refl _, .refl _, .refl _⟩⟩

def fold (g : AccessGraph) (orders : Orders g) : Except Overflow SharingGraph :=
  (draftOf orders.vertices orders.pairs).build

section Walk

variable {g : AccessGraph}

theorem addUp_map_ite_or {items : List ObjectId} (hnodup : items.Nodup) {a : ObjectId}
    (ha : a ∈ items) {p : ObjectId → Prop} [DecidablePred p] (hnew : ¬ p a)
    (f : ObjectId → Nat) :
    addUp (items.map fun b => if b = a ∨ p b then f b else 0) =
      addUp (items.map fun b => if p b then f b else 0) + f a := by
  have hsplit : ∀ b, (if b = a ∨ p b then f b else 0) =
      (if p b then f b else 0) + if b = a then f b else 0 := by
    intro b
    by_cases hb : b = a
    · simp [hb, hnew]
    · simp [hb]
  have hown : ∀ b, (if b = a then f b else 0) = if b = a then f a else 0 := by
    intro b
    split
    next hb => rw [hb]
    next => rfl
  simp only [hsplit, addUp_map_add, hown, addUp_map_ite_eq, List.count_eq_one_of_mem hnodup ha,
    Nat.one_mul]

def worth (g : AccessGraph) (path : (Identity × Identity) × ObjectId) : Nat :=
  min (g.use path.1.1 path.2) (g.use path.1.2 path.2)

def Counted (g : AccessGraph) (walk : Walk) : Prop :=
  ∀ pair, walk.weights.count pair = addUp (g.objects.map fun object =>
    if (pair, object) ∈ walk.seen then g.worth (pair, object) else 0)

structure Genuine (g : AccessGraph) (m : Meeting) : Prop where
  object : m.object ∈ g.objects
  least : m.least = min (g.use m.own m.object) (g.use m.other m.object)

theorem Genuine.worth_path {m : Meeting} (genuine : g.Genuine m) : g.worth m.path = m.least := by
  rw [genuine.least, worth, Meeting.path, Draft.pairOf]
  split
  next => exact Nat.min_comm ..
  next => rfl

theorem Walk.not_mem_seen_empty {path : (Identity × Identity) × ObjectId} :
    path ∉ (∅ : Walk).seen :=
  Std.ExtTreeSet.not_mem_empty

theorem counted_empty (g : AccessGraph) : g.Counted ∅ := by
  intro pair
  simp only [Walk.not_mem_seen_empty, if_false]
  refine (Tally.count_empty pair).trans (addUp_eq_zero fun n hmem => ?_).symm
  obtain ⟨_, -, rfl⟩ := List.mem_map.mp hmem
  rfl

theorem Counted.take {walk : Walk} (counted : g.Counted walk) {m : Meeting}
    (genuine : g.Genuine m) (hnew : m.path ∉ walk.seen) : g.Counted (walk.take m) := by
  intro pair
  simp only [Walk.take, Tally.count_add, Std.ExtTreeSet.mem_insert, Std.compare_eq_iff_eq]
  by_cases hpair : m.path.1 = pair
  · subst hpair
    have hpath : ∀ object, m.path = (m.path.1, object) ↔ object = m.object :=
      fun object => ⟨fun h => (congrArg Prod.snd h).symm, fun h => by rw [h]; rfl⟩
    have hsum := addUp_map_ite_or (p := fun object => (m.path.1, object) ∈ walk.seen)
      g.nodup_objects genuine.object hnew fun object => g.worth (m.path.1, object)
    simp only [hpath, if_true]
    rw [hsum, counted, ← genuine.worth_path]
    rfl
  · have hother : ∀ object, m.path ≠ (pair, object) := fun object h => hpair (congrArg Prod.fst h)
    simp only [hpair, hother, false_or, if_false]
    exact counted pair

theorem Counted.meet {walk : Walk} (counted : g.Counted walk) {m : Meeting}
    (genuine : g.Genuine m) : g.Counted (walk.meet m) := by
  unfold Walk.meet
  split
  next => exact counted
  next =>
    split
    next => exact counted
    next hnew => exact counted.take genuine hnew

theorem Walk.mem_seen_meet {walk : Walk} {m : Meeting} {path : (Identity × Identity) × ObjectId} :
    path ∈ (walk.meet m).seen ↔ path ∈ walk.seen ∨ m.other ≠ m.own ∧ m.path = path := by
  unfold Walk.meet
  split
  next heq => simp [heq]
  next hne =>
    split
    next hold =>
      refine ⟨.inl, ?_⟩
      rintro (hseen | ⟨-, rfl⟩)
      · exact hseen
      · exact hold
    next =>
      simp only [take, Std.ExtTreeSet.mem_insert, Std.compare_eq_iff_eq, hne, ne_eq,
        not_false_eq_true, true_and]
      exact Or.comm

theorem Counted.run {walk : Walk} (counted : g.Counted walk) {meetings : List Meeting}
    (genuine : ∀ m ∈ meetings, g.Genuine m) : g.Counted (meetings.foldl Walk.meet walk) := by
  induction meetings generalizing walk with
  | nil => exact counted
  | cons m rest ih =>
    exact ih (counted.meet (genuine m List.mem_cons_self))
      fun other hmem => genuine other (List.mem_cons_of_mem _ hmem)

theorem Walk.mem_seen_run {walk : Walk} {meetings : List Meeting}
    {path : (Identity × Identity) × ObjectId} : path ∈ (meetings.foldl Walk.meet walk).seen ↔
      path ∈ walk.seen ∨ ∃ m ∈ meetings, m.other ≠ m.own ∧ m.path = path := by
  induction meetings generalizing walk with
  | nil => simp
  | cons m rest ih =>
    rw [List.foldl_cons, ih, Walk.mem_seen_meet, List.exists_mem_cons_iff, or_assoc]

theorem Sound.mem_meetings (sound : g.Sound) {names : List Identity} {m : Meeting} :
    m ∈ g.meetings names ↔ m.own ∈ names ∧ 0 < g.use m.own m.object ∧
      0 < g.use m.other m.object ∧
        m.least = min (g.use m.own m.object) (g.use m.other m.object) := by
  simp only [meetings, meetingsOf, List.mem_flatMap, List.mem_map, Prod.exists,
    sound.mem_identityEdges, sound.mem_objectEdges, sound.use_pos]
  constructor
  · rintro ⟨own, hown, object, use, huse, other, otherUse, hother, rfl⟩
    refine ⟨hown, ⟨use, huse⟩, ⟨otherUse, hother⟩, ?_⟩
    rw [use_of_edgeWeight huse, use_of_edgeWeight hother]
  · rintro ⟨hown, ⟨use, huse⟩, ⟨otherUse, hother⟩, hleast⟩
    rw [use_of_edgeWeight huse, use_of_edgeWeight hother] at hleast
    exact ⟨m.own, hown, m.object, use, huse, m.other, otherUse, hother, by rw [← hleast]⟩

theorem worth_pos {first second : Identity} {object : ObjectId} :
    0 < g.worth ((first, second), object) ↔ 0 < g.use first object ∧ 0 < g.use second object :=
  Nat.lt_min

/-- The walk takes every path that is worth something, and only paths from a name to a later
one. -/
theorem Sound.seen_walk (sound : g.Sound) {names : List Identity}
    (hnames : names.Perm g.identities) (first second : Identity) (object : ObjectId) :
    ((first, second), object) ∈ (g.walk names).seen ↔
      first < second ∧ 0 < g.worth ((first, second), object) := by
  rw [walk, Walk.mem_seen_run, or_iff_right Walk.not_mem_seen_empty, worth_pos]
  constructor
  · rintro ⟨m, hmem, hne, hpath⟩
    obtain ⟨-, hown, hother, -⟩ := sound.mem_meetings.mp hmem
    obtain ⟨hpair, rfl⟩ := Prod.mk.inj hpath
    rcases Draft.pairOf_cases hne.symm with ⟨hlt, hcase⟩ | ⟨hlt, hcase⟩
    · rw [hcase] at hpair
      cases hpair
      exact ⟨hlt, hown, hother⟩
    · rw [hcase] at hpair
      cases hpair
      exact ⟨hlt, hother, hown⟩
  · rintro ⟨hlt, hfirst, hsecond⟩
    have hmem := hnames.mem_iff.mpr (mem_identities.mpr (sound.contains_of_use hfirst).1)
    refine ⟨⟨first, second, object, g.worth ((first, second), object)⟩,
      sound.mem_meetings.mpr ⟨hmem, hfirst, hsecond, rfl⟩, ?_, ?_⟩
    · exact fun heq : second = first => String.lt_irrefl _ (heq ▸ hlt)
    · rw [Meeting.path, Draft.pairOf, if_neg (String.lt_asymm hlt)]

theorem Sound.count_walk (sound : g.Sound) {names : List Identity}
    (hnames : names.Perm g.identities) (first second : Identity) :
    (g.walk names).weights.count (first, second) =
      if first < second then g.common first second else 0 := by
  have hgenuine : ∀ m ∈ g.meetings names, g.Genuine m := by
    intro m hmem
    obtain ⟨-, hown, -, hleast⟩ := sound.mem_meetings.mp hmem
    exact ⟨mem_objects.mpr (sound.contains_of_use hown).2, hleast⟩
  have hcount : (g.walk names).weights.count (first, second) = _ :=
    (counted_empty g).run hgenuine (first, second)
  have hseen := sound.seen_walk hnames first second
  rw [walk] at hseen
  simp only [hcount, hseen]
  by_cases hlt : first < second
  · simp only [hlt, true_and, if_true]
    congr 1
    apply List.map_congr_left
    intro object _
    change _ = g.worth ((first, second), object)
    split
    next => rfl
    next hzero => exact (Nat.eq_zero_of_not_pos hzero).symm
  · simp only [hlt, false_and, if_false]
    refine addUp_eq_zero fun n hmem => ?_
    obtain ⟨_, -, rfl⟩ := List.mem_map.mp hmem
    rfl

end Walk

section Draft

theorem pairs_addVertices (d : Draft) (names : List Identity) :
    (names.foldl Draft.addVertex d).pairs = d.pairs := by
  induction names generalizing d with
  | nil => rfl
  | cons name rest ih => exact ih _

theorem mem_addVertices {d : Draft} {names : List Identity} {name : Identity} :
    name ∈ (names.foldl Draft.addVertex d).vertices ↔ name ∈ names ∨ name ∈ d.vertices := by
  induction names generalizing d with
  | nil => simp
  | cons other rest ih =>
    rw [List.foldl_cons, ih, Draft.mem_addVertex, List.mem_cons, or_left_comm, or_assoc]

variable {g : AccessGraph} (orders : Orders g)

theorem Sound.of_mem_pairs (sound : g.Sound) {first second : Identity} {weight : Weight}
    (h : ((first, second), weight) ∈ orders.pairs) :
    first < second ∧ first ∈ g.identities ∧ second ∈ g.identities := by
  obtain ⟨hcount, hpositive⟩ := Tally.mem_entries.mp (orders.pairs_perm.mem_iff.mp h)
  rw [sound.count_walk orders.names_perm] at hcount
  split at hcount
  next hlt =>
    exact ⟨hlt, sound.identities_of_common (hcount ▸ hpositive)⟩
  next => exact absurd hcount (Nat.ne_of_lt hpositive)

theorem Sound.count_draftOf (sound : g.Sound) (first second : Identity) :
    (draftOf orders.vertices orders.pairs).weights.count (first, second) =
      if first < second then g.common first second else 0 := by
  have hordered : ∀ entry ∈ orders.pairs, entry.1.1 < entry.1.2 :=
    fun _ hmem => (sound.of_mem_pairs orders hmem).1
  have hzero : (orders.vertices.foldl Draft.addVertex ∅).weights.count (first, second) = 0 := by
    rw [Draft.weights, pairs_addVertices]
    exact Tally.count_empty _
  rw [draftOf, count_addPairs hordered, hzero, Nat.zero_add,
    Tally.share_perm orders.pairs_perm, Tally.share_entries, sound.count_walk orders.names_perm]

theorem Sound.mem_draftOf (sound : g.Sound) {name : Identity} :
    name ∈ (draftOf orders.vertices orders.pairs).vertices ↔ name ∈ g.identities := by
  have hvertices : name ∈ (orders.vertices.foldl Draft.addVertex ∅).vertices ↔
      name ∈ g.identities := by
    rw [mem_addVertices, orders.vertices_perm.mem_iff]
    exact or_iff_left Std.ExtTreeSet.not_mem_empty
  constructor
  · intro h
    rcases mem_addPairs h with hold | ⟨entry, hmem, hname⟩
    · exact hvertices.mp hold
    · obtain ⟨-, hfirst, hsecond⟩ := sound.of_mem_pairs orders hmem
      rcases hname with rfl | rfl
      · exact hfirst
      · exact hsecond
  · exact fun h => mem_addPairs_of_mem _ (hvertices.mpr h)

theorem Sound.fold_eq_project (sound : g.Sound) : g.fold orders = g.project := by
  refine Draft.build_congr (fun name => ?_) fun pair => ?_
  · rw [sound.mem_draftOf, sound.mem_shareDraft]
  · obtain ⟨first, second⟩ := pair
    rw [sound.count_draftOf, sound.count_shareDraft g.nodup_identities]
    by_cases hmem : first ∈ g.identities
    · simp only [hmem, true_and]
    · have hzero : g.common first second = 0 := by
        by_contra hpositive
        exact hmem (sound.identities_of_common (Nat.pos_of_ne_zero hpositive)).1
      simp only [hmem, hzero, false_and, ite_self]

end Draft

section Law

variable {g h : AccessGraph}

/-- The law of the projection: the identities in ascending order, and in the order of their ends
the links between any two of them that use a common object, each weighing the sum over all objects
of the smaller of the two uses. -/
structure Projects (g : AccessGraph) (shared : SharingGraph) : Prop where
  ascending : shared.vertices.toList.Pairwise (· < ·)
  mem_vertices : ∀ name, name ∈ shared.vertices ↔ g.contains (.identity name)
  links_ascending : shared.links.Pairwise Link.Before
  mem_links : ∀ link, link ∈ shared.links ↔ ∃ first second,
    shared.vertices[link.left]? = some first ∧ shared.vertices[link.right]? = some second ∧
      first < second ∧ g.Shares first second ∧ link.weight = g.common first second

theorem Sound.projects (sound : g.Sound) {shared : SharingGraph}
    (h : g.project = .ok shared) : g.Projects shared := by
  obtain ⟨built, hvertices, hlinks⟩ := sound.project_eq_ok h
  refine ⟨built.ascending, hvertices, built.links_ascending, fun link => ?_⟩
  rw [hlinks]
  simp only [sound.shares_iff]
  constructor
  · rintro ⟨first, second, hi, hj, hlt, hweight, hpositive⟩
    exact ⟨first, second, hi, hj, hlt, hweight ▸ hpositive, hweight.symm⟩
  · rintro ⟨first, second, hi, hj, hlt, hpositive, hweight⟩
    exact ⟨first, second, hi, hj, hlt, hweight.symm, hweight ▸ hpositive⟩

/-- The law leaves no choice. -/
theorem Projects.unique {left right : SharingGraph} (hleft : g.Projects left)
    (hright : g.Projects right) : left = right := by
  have hvertices : left.vertices = right.vertices := by
    apply Array.toList_inj.mp
    refine hleft.ascending.eq_of_mem_iff hright.ascending fun name => ?_
    rw [Array.mem_toList_iff, Array.mem_toList_iff, hleft.mem_vertices, hright.mem_vertices]
  refine SharingGraph.ext hvertices
    (hleft.links_ascending.eq_of_mem_iff hright.links_ascending fun link => ?_)
  rw [hleft.mem_links, hright.mem_links, hvertices]

def totalCommon (g : AccessGraph) : Nat :=
  addUp ((g.identities ×ˢ g.identities).map fun (first, second) =>
    if first < second then g.common first second else 0)

theorem Sound.total_draftOf (sound : g.Sound) (orders : Orders g) :
    (draftOf orders.vertices orders.pairs).weights.total = g.totalCommon := by
  have hcount := sound.count_draftOf orders
  rw [Tally.total_eq (g.nodup_identities.product g.nodup_identities), totalCommon]
  · congr 1
    exact List.map_congr_left fun pair _ => hcount pair.1 pair.2
  · rintro ⟨first, second⟩ hpositive
    rw [hcount] at hpositive
    split at hpositive
    next => exact List.pair_mem_product.mpr (sound.identities_of_common hpositive)
    next => exact absurd hpositive (Nat.lt_irrefl 0)

theorem Sound.fold_congr (sound : g.Sound) (sound' : h.Sound)
    (hweight : ∀ name object, g.edgeWeight name object = h.edgeWeight name object)
    (orders : Orders g) (orders' : Orders h) : g.fold orders = h.fold orders' := by
  have same : g.SameEdges h := fun name object => congrArg Option.isSome (hweight name object)
  have hcommon : ∀ first second, g.common first second = h.common first second := by
    intro first second
    simp only [common, same.objects sound sound', use, hweight]
  refine Draft.build_congr (fun name => ?_) fun pair => ?_
  · rw [sound.mem_draftOf, sound'.mem_draftOf, same.identities sound sound']
  · obtain ⟨first, second⟩ := pair
    rw [sound.count_draftOf, sound'.count_draftOf, hcommon]

theorem Sound.fold_eq (sound : g.Sound) (orders : Orders g) : g.fold orders =
    if g.totalCommon < wordBound then .ok (draftOf orders.vertices orders.pairs).graph
    else .error .sum := by
  rw [← sound.total_draftOf orders]
  exact Draft.build_eq _

theorem Sound.fold_eq_ok (sound : g.Sound) (orders : Orders g) {shared : SharingGraph} :
    g.fold orders = .ok shared ↔ g.totalCommon < wordBound ∧ g.Projects shared := by
  have hlaw {made : SharingGraph} (hfold : g.fold orders = .ok made) : g.Projects made :=
    sound.projects ((sound.fold_eq_project orders).symm.trans hfold)
  constructor
  · intro hfold
    refine ⟨?_, hlaw hfold⟩
    by_contra hlarge
    rw [sound.fold_eq, if_neg hlarge] at hfold
    cases hfold
  · rintro ⟨hfits, hprojects⟩
    have hfold := (sound.fold_eq orders).trans (if_pos hfits)
    rw [hfold, hprojects.unique (hlaw hfold)]

theorem Sound.totalWeight_of_fold (sound : g.Sound) (orders : Orders g) {shared : SharingGraph}
    (hfold : g.fold orders = .ok shared) : shared.totalWeight = g.totalCommon := by
  have hfits := ((sound.fold_eq_ok orders).mp hfold).1
  rw [sound.fold_eq, if_pos hfits] at hfold
  cases hfold
  rw [Draft.totalWeight_graph, sound.total_draftOf]

end Law

/-- In whatever orders, the walk makes the one graph that keeps the law of the projection, as long
as all that is used in common fits in a word. -/
theorem fold_law (history : List Change) (orders : Orders (after history)) :
    (after history).fold orders = (after history).project ∧
    ((after history).totalCommon < wordBound → ∃ shared,
      (after history).fold orders = .ok shared ∧ (after history).Projects shared ∧
        (∀ other, (after history).Projects other → other = shared) ∧
          shared.totalWeight = (after history).totalCommon) ∧
    (wordBound ≤ (after history).totalCommon → (after history).fold orders = .error .sum) ∧
    ∀ (other : List Change) (orders' : Orders (after other)),
      (∀ name object,
        (after other).edgeWeight name object = (after history).edgeWeight name object) →
      (after other).fold orders' = (after history).fold orders := by
  have sound := sound_after history
  have hproject := sound.fold_eq_project orders
  have hbuild := Draft.build_eq (draftOf orders.vertices orders.pairs)
  rw [sound.total_draftOf] at hbuild
  refine ⟨hproject, fun hfits => ?_, fun hlarge => ?_, fun other orders' hweight => ?_⟩
  · rw [if_pos hfits] at hbuild
    have hlaw := sound.projects (hproject.symm.trans hbuild)
    refine ⟨_, hbuild, hlaw, fun other hother => hother.unique hlaw, ?_⟩
    rw [Draft.totalWeight_graph, sound.total_draftOf]
  · rw [if_neg (Nat.not_lt.mpr hlarge)] at hbuild
    exact hbuild
  · exact (sound_after other).fold_congr sound hweight orders' orders

end AccessGraph

end Cohort
