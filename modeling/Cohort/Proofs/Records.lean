import Cohort.Proofs.AccessGraph.Register
import Cohort.Proofs.Projection.Scaled
import Cohort.Proofs.Tampering

/-! One record of accesses. It counts one on the edge of each object and notes one under the key of
that edge, or it is refused and counts nothing. All that the record does not name stays as it was,
and the order and repetitions of the objects do not matter. -/

namespace Cohort

namespace AccessGraph

variable {g : AccessGraph} {name : Identity} {objects : List ObjectId}

def endsOf (name : Identity) : List ObjectId → List Vertex
  | [] => []
  | objects => .identity name :: objects.map .object

theorem mem_endsOf {vertex : Vertex} : vertex ∈ endsOf name objects ↔
    ∃ object ∈ objects, vertex = .identity name ∨ vertex = .object object := by
  cases objects with
  | nil => simp [endsOf]
  | cons first rest =>
    simp only [endsOf, List.mem_cons, List.mem_map]
    constructor
    · rintro (rfl | ⟨object, hmem, rfl⟩)
      · exact ⟨first, .inl rfl, .inl rfl⟩
      · exact ⟨object, hmem, .inr rfl⟩
    · rintro ⟨object, hmem, rfl | rfl⟩
      · exact .inl rfl
      · exact .inr ⟨object, hmem, rfl⟩

theorem nodup_endsOf (name : Identity) (hnodup : objects.Nodup) : (endsOf name objects).Nodup := by
  cases objects with
  | nil => exact List.nodup_nil
  | cons first rest => exact nodup_vertices (List.nodup_singleton name) hnodup

section Touch

theorem Sound.vertexAt_touch (sound : g.Sound) (name : Identity) (objects : List ObjectId)
    {key : VertexKey} {vertex : Vertex} (h : g.vertexAt key = some vertex) :
    (g.touch name objects).2.vertexAt key = some vertex := by
  induction objects generalizing g with
  | nil => exact h
  | cons object rest ih =>
    rw [touch_cons]
    exact ih (sound.increment name object) (sound.vertexAt_increment name object h)

theorem Sound.use_touch (sound : g.Sound) (name : Identity) (hnodup : objects.Nodup)
    (other : Identity) (object : ObjectId) : (g.touch name objects).2.use other object =
      g.use other object + if other = name ∧ object ∈ objects then 1 else 0 := by
  induction objects generalizing g with
  | nil =>
    change g.use other object = _
    simp
  | cons first rest ih =>
    obtain ⟨hnew, hrest⟩ := List.nodup_cons.mp hnodup
    rw [touch_cons, ih (sound.increment name first) hrest, sound.use_increment, Nat.add_assoc]
    congr 1
    simp only [Prod.mk.injEq, List.mem_cons, @eq_comm _ name, @eq_comm _ first]
    by_cases hname : other = name
    · by_cases hobject : object = first
      · simp [hname, hobject, hnew]
      · simp [hname, hobject]
    · simp [hname]

theorem Sound.edgeWeight_touch (sound : g.Sound) (hnodup : objects.Nodup) {object : ObjectId}
    (hmem : object ∈ objects) : (g.touch name objects).2.edgeWeight name object =
      some (g.use name object + 1) := by
  have huse := sound.use_touch name hnodup name object
  rw [if_pos ⟨rfl, hmem⟩] at huse
  rw [(sound.touch name objects).edgeWeight_eq_use, huse, if_neg (Nat.succ_ne_zero _)]

theorem Sound.edgeWeight_touch_of_not (sound : g.Sound) (hnodup : objects.Nodup)
    {other : Identity} {object : ObjectId} (hnot : ¬ (other = name ∧ object ∈ objects)) :
    (g.touch name objects).2.edgeWeight other object = g.edgeWeight other object := by
  rw [(sound.touch name objects).edgeWeight_eq_use, sound.edgeWeight_eq_use,
    sound.use_touch name hnodup, if_neg hnot, Nat.add_zero]

theorem Sound.key?_touch_of_some (sound : g.Sound) (name : Identity) (objects : List ObjectId)
    {other : Identity} {object : ObjectId} {key : EdgeKey} (h : g.key? other object = some key) :
    (g.touch name objects).2.key? other object = some key := by
  rw [(sound.touch name objects).key?_eq_some]
  exact sound.ends?_touch name objects (sound.key?_eq_some.mp h)

theorem Sound.key?_touch_of_not (sound : g.Sound) (hnodup : objects.Nodup) {other : Identity}
    {object : ObjectId} (hnot : ¬ (other = name ∧ object ∈ objects)) :
    (g.touch name objects).2.key? other object = g.key? other object := by
  cases hkey : g.key? other object with
  | some key => exact sound.key?_touch_of_some name objects hkey
  | none =>
    have hsound := sound.touch name objects
    have hnone : g.edgeWeight other object = none := by rw [edgeWeight, hkey, Option.bind_none]
    rw [← sound.edgeWeight_touch_of_not hnodup hnot, hsound.edgeWeight_eq_none] at hnone
    rw [Option.eq_none_iff_forall_ne_some]
    exact fun key hfound => hnone key (hsound.key?_eq_some.mp hfound)

theorem Sound.count_touch_eq_zero (sound : g.Sound) {key : EdgeKey}
    (h : ∀ object ∈ objects, (g.touch name objects).2.key? name object ≠ some key) :
    (g.touch name objects).1.count key = 0 := by
  rw [List.count_eq_zero]
  intro hmem
  have hends : (g.touch name objects).2.ends? key ∈
      (g.touch name objects).1.map (g.touch name objects).2.ends? := List.mem_map_of_mem hmem
  rw [sound.ends?_touch_fst, List.mem_map] at hends
  obtain ⟨object, hobject, hpair⟩ := hends
  exact h object hobject ((sound.touch name objects).key?_eq_some.mpr hpair.symm)

theorem Sound.contains_iff_use (sound : g.Sound) {vertex : Vertex} : g.contains vertex ↔
    ∃ name object, 0 < g.use name object ∧ (vertex = .identity name ∨ vertex = .object object) := by
  simp only [sound.contains_iff, sound.use_pos, exists_and_right]

theorem Sound.contains_touch (sound : g.Sound) (hnodup : objects.Nodup) {vertex : Vertex} :
    (g.touch name objects).2.contains vertex ↔
      g.contains vertex ∨ vertex ∈ endsOf name objects := by
  rw [(sound.touch name objects).contains_iff_use, sound.contains_iff_use, mem_endsOf]
  simp only [sound.use_touch name hnodup]
  constructor
  · rintro ⟨other, object, huse, hvertex⟩
    by_cases hrecorded : other = name ∧ object ∈ objects
    · obtain ⟨rfl, hmem⟩ := hrecorded
      exact .inr ⟨object, hmem, hvertex⟩
    · rw [if_neg hrecorded] at huse
      exact .inl ⟨other, object, huse, hvertex⟩
  · rintro (⟨other, object, huse, hvertex⟩ | ⟨object, hmem, hvertex⟩)
    · exact ⟨other, object, Nat.lt_of_lt_of_le huse (Nat.le_add_right _ _), hvertex⟩
    · exact ⟨name, object, by simp [hmem], hvertex⟩

theorem Sound.vertexList_touch (sound : g.Sound) (hnodup : objects.Nodup) :
    (g.touch name objects).2.vertexList.Perm
      (g.vertexList ++ (endsOf name objects).filter fun vertex => !g.contains vertex) := by
  have hsound := sound.touch name objects
  have hapart : (g.vertexList ++
      (endsOf name objects).filter fun vertex => !g.contains vertex).Nodup := by
    refine List.nodup_append'.mpr
      ⟨sound.nodup_vertexList, (nodup_endsOf name hnodup).filter _, fun vertex hold hnew => ?_⟩
    have hcontains := sound.mem_vertexList.mp hold
    have hmissing := (List.mem_filter.mp hnew).2
    rw [hcontains] at hmissing
    cases hmissing
  rw [List.perm_ext_iff_of_nodup hsound.nodup_vertexList hapart]
  intro vertex
  rw [hsound.mem_vertexList, sound.contains_touch hnodup, List.mem_append, List.mem_filter,
    sound.mem_vertexList]
  by_cases hcontains : g.contains vertex <;> simp [hcontains]

end Touch

end AccessGraph

namespace Tracker

open AccessGraph

variable {t : Tracker} {name : Identity} {objects : List ObjectId}

/-- What a record makes of a tracker. Each object adds one to its edge and to what the open period
notes under the key of that edge. Every other edge, key and note stays, only missing vertices are
made, and the record is counted as one update. -/
structure CountsOnce (t : Tracker) (name : Identity) (objects : List ObjectId) (t' : Tracker) :
    Prop where
  counted : ∀ object ∈ objects, ∃ key, t'.graph.key? name object = some key ∧
    t'.graph.edgeWeight name object = some (t.graph.use name object + 1) ∧
      t'.window.openEdges key = t.window.openEdges key + 1
  weights : ∀ other object, ¬ (other = name ∧ object ∈ objects) →
    t'.graph.edgeWeight other object = t.graph.edgeWeight other object
  keys : ∀ other object, ¬ (other = name ∧ object ∈ objects) →
    t'.graph.key? other object = t.graph.key? other object
  kept : ∀ other object key, t.graph.key? other object = some key →
    t'.graph.key? other object = some key
  notes : ∀ key, (∀ object ∈ objects, t'.graph.key? name object ≠ some key) →
    t'.window.openEdges key = t.window.openEdges key
  vertices : t'.graph.vertexList.Perm (t.graph.vertexList ++
    (endsOf name (accessSet objects)).filter fun vertex => !t.graph.contains vertex)
  seated : ∀ (vertex : Vertex) (key : VertexKey), t.graph.places[vertex]? = some key →
    t'.graph.places[vertex]? = some key
  window : t'.window = { t.window with
    opened := { t.window.opened with edges := t'.window.opened.edges } }
  places : t'.places = t.places
  conflicts : t'.conflicts = t.conflicts
  counters : t'.counters = { t.counters with updates := t.counters.updates + 1 }
  idle : objects = [] →
    t' = { t with counters := { t.counters with updates := t.counters.updates + 1 } }

theorem openEdges_recorded (t : Tracker) (name : Identity) (set : List ObjectId) (key : EdgeKey) :
    (t.recorded name set).window.openEdges key =
      t.window.openEdges key + (t.graph.touch name set).1.count key :=
  Period.count_addEdges ..

theorem countsOnce_recorded (sound : t.graph.Sound) (name : Identity) (objects : List ObjectId) :
    t.CountsOnce name objects (t.recorded name (accessSet objects)) where
  counted object hmem := by
    have hmem := mem_accessSet.mpr hmem
    obtain ⟨key, hends⟩ := sound.exists_touch_fst name hmem
    refine ⟨key, (sound.touch name _).key?_eq_some.mpr hends,
      sound.edgeWeight_touch (nodup_accessSet objects) hmem, ?_⟩
    rw [openEdges_recorded, sound.count_touch_fst (nodup_accessSet objects) hends,
      if_pos ⟨rfl, hmem⟩]
  weights other object hnot := by
    rw [← mem_accessSet] at hnot
    exact sound.edgeWeight_touch_of_not (nodup_accessSet objects) hnot
  keys other object hnot := by
    rw [← mem_accessSet] at hnot
    exact sound.key?_touch_of_not (nodup_accessSet objects) hnot
  kept other object key := sound.key?_touch_of_some name _
  notes key hnot := by
    simp only [← @mem_accessSet objects] at hnot
    rw [openEdges_recorded, sound.count_touch_eq_zero hnot, Nat.add_zero]
  vertices := sound.vertexList_touch (nodup_accessSet objects)
  seated vertex key hplace := by
    have hsound := sound.touch name (accessSet objects)
    exact (hsound.places vertex key).mpr
      (sound.vertexAt_touch name _ ((sound.places vertex key).mp hplace))
  window := congrArg (fun opened => { t.window with opened })
    (congrArg (Period.mk _) (Period.conflicts_addEdges ..))
  places := rfl
  conflicts := rfl
  counters := rfl
  idle hnone := by
    rw [hnone]
    rfl

theorem accepted_iff : Action.accepted name objects ↔ name ≠ "" ∧ 0 ∉ objects := by
  have hobjects : (∀ object ∈ objects, ¬ object = 0) ↔ 0 ∉ objects :=
    ⟨fun h hmem => h 0 hmem rfl, fun h _ hmem hzero => h (hzero ▸ hmem)⟩
  simp [Action.accepted, Identity.isAbsent, ObjectId.isAbsent, hobjects]

theorem accessSet_congr {others : List ObjectId}
    (h : ∀ object, object ∈ others ↔ object ∈ objects) : accessSet others = accessSet objects := by
  refine congrArg Std.ExtTreeSet.toList (Std.ExtTreeSet.ext_mem fun object => ?_)
  rw [← Std.ExtTreeSet.mem_toList, ← Std.ExtTreeSet.mem_toList]
  exact mem_accessSet.trans ((h object).trans mem_accessSet.symm)

theorem record_congr (t : Tracker) (name : Identity) {others : List ObjectId}
    (h : ∀ object, object ∈ others ↔ object ∈ objects) :
    t.record name others = t.record name objects := by
  rw [record, accessSet_congr h, record]

theorem record_eq_error :
    (∃ fault, t.record name objects = .error fault) ↔ name = "" ∨ 0 ∈ objects := by
  have hrefused : ¬ Action.accepted name objects ↔ name = "" ∨ 0 ∈ objects := by
    rw [accepted_iff, not_and_or, not_not, not_not]
  rw [← hrefused]
  refine ⟨?_, record_of_refused⟩
  rintro ⟨fault, hfault⟩ haccepted
  cases (record_of_accepted haccepted).symm.trans hfault

end Tracker

open AccessGraph Tracker

/-- A record with an empty name or an absent object is refused and changes nothing. Any other adds
one for each of its objects, and only which objects are listed matters. -/
theorem record_all_or_nothing {count : Nat} {t₀ t : Tracker} {history : List Change}
    (hcount : ofCount count = .ok t₀) (run : Tampered t₀ history t) (name : Identity)
    (objects : List ObjectId) :
    ((∃ fault, t.record name objects = .error fault) ↔ name = "" ∨ 0 ∈ objects) ∧
    (name = "" ∨ 0 ∈ objects → t.act (.record name objects) = t) ∧
    (name ≠ "" → 0 ∉ objects → ∃ t', t.record name objects = .ok t' ∧
      t.act (.record name objects) = t' ∧ t.CountsOnce name objects t') ∧
    ∀ others, (∀ object, object ∈ others ↔ object ∈ objects) →
      t.record name others = t.record name objects := by
  refine ⟨record_eq_error, fun hrefused => ?_, fun hname hobjects => ?_,
    fun others => t.record_congr name⟩
  · obtain ⟨fault, hfault⟩ := record_eq_error.mpr hrefused
    rw [act, hfault]
  · have haccepted := accepted_iff.mpr ⟨hname, hobjects⟩
    refine ⟨_, record_of_accepted haccepted, ?_, countsOnce_recorded (run.sound hcount) name objects⟩
    rw [act_record, if_pos haccepted]

theorem record_all_or_nothing_repeated :
    ∃ t₀ t t', ofCount 2 = .ok t₀ ∧ Tampered t₀ [.increment "a" 7] t ∧
      t.record "a" [8, 7, 8] = .ok t' ∧ t.record "a" [7, 8] = .ok t' ∧
      (∃ key, t'.graph.key? "a" 7 = some key ∧
        t'.graph.edgeWeight "a" 7 = some (t.graph.use "a" 7 + 1) ∧
          t'.window.openEdges key = t.window.openEdges key + 1) ∧
      t'.graph.vertexList.Perm [.identity "a", .object 7, .object 8] ∧
      t.act (.record "a" [7, 0]) = t := by
  have hcount : ofCount 2 = .ok ⟨∅, ∅, ⟨2, ∅, ∅⟩, ∅, .zero⟩ := rfl
  have run := (@Tampered.start ⟨∅, ∅, ⟨2, ∅, ∅⟩, ∅, .zero⟩).act (.record "a" [7])
  obtain ⟨-, -, hcounted, hset⟩ := record_all_or_nothing hcount run "a" [8, 7, 8]
  obtain ⟨t', hrecord, -, once⟩ := hcounted (by decide) (by decide)
  obtain ⟨-, hrefused, -⟩ := record_all_or_nothing hcount run "a" [7, 0]
  refine ⟨_, _, t', hcount, run, hrecord, (hset [7, 8] fun object => ?_).trans hrecord,
    once.counted 7 (by decide), once.vertices, hrefused (.inr (by decide))⟩
  simp [or_comm, or_left_comm]

end Cohort
