import Cohort.Proofs.CanonicalGraph
import Cohort.Proofs.Views

/-! Handles always describe the latest fold. A fold is numbered later than all before it, so when
folds come one after another none is passed over, and what happens between two folds leaves the
handles alone, however much of the live graph comes and goes. -/

namespace Cohort

namespace SharingGraph

variable {g : SharingGraph} {name : Identity}

theorem handle?_eq_some (hnodup : g.vertices.toList.Nodup) {handle : Handle} :
    g.handle? name = some handle ↔
      handle.identity = name ∧ g.identity? handle.position = some name := by
  obtain ⟨identity, position⟩ := handle
  simp only [handle?, Option.map_eq_some_iff, indexOf?_eq_some hnodup, Handle.mk.injEq]
  constructor
  · rintro ⟨_, hplace, rfl, rfl⟩
    exact ⟨rfl, hplace⟩
  · rintro ⟨rfl, hplace⟩
    exact ⟨position, hplace, rfl, rfl⟩

theorem isSome_handle? (hnodup : g.vertices.toList.Nodup) :
    (g.handle? name).isSome ↔ name ∈ g.vertices := by
  simp only [Option.isSome_iff_exists, handle?_eq_some hnodup, Array.mem_iff_getElem?]
  constructor
  · rintro ⟨handle, -, hplace⟩
    exact ⟨handle.position, hplace⟩
  · rintro ⟨position, hplace⟩
    exact ⟨⟨name, position⟩, rfl, hplace⟩

end SharingGraph

namespace Places

theorem getElem?_handlesOf {g : SharingGraph} (hnodup : g.vertices.toList.Nodup)
    (name : Identity) : (handlesOf g)[name]? = g.handle? name := by
  ext handle
  rw [handlesOf, getElem?_ofList_eq_some, SharingGraph.handle?_eq_some hnodup]
  · simp only [List.mem_map, Prod.mk.injEq, List.mem_zipIdx_iff_getElem?, Prod.exists,
      Array.getElem?_toList, SharingGraph.identity?]
    constructor
    · rintro ⟨_, position, hplace, rfl, rfl⟩
      exact ⟨rfl, hplace⟩
    · rintro ⟨rfl, hplace⟩
      exact ⟨_, handle.position, hplace, rfl, rfl⟩
  · -- no identity has two handles, since none is in the graph twice
    rw [List.map_map]
    exact (List.zipIdx_map_fst ..).symm ▸ hnodup

def Current (p : Places) : Prop :=
  p.edition ≤ p.begun

theorem install_announced {p : Places} (current : p.Current) (g : SharingGraph) :
    p.announce.2.install p.announce.1 g =
      (true, ⟨p.begun + 1, p.begun + 1, handlesOf g⟩) := by
  have hlater : ¬ p.begun + 1 < p.edition := Nat.not_lt.mpr (Nat.le_succ_of_le current)
  simp [announce, install, hlater]

end Places

namespace Tracker

/-- What a tracker remembers of the latest fold: of the live graph then, and the graph that was
made of it. -/
structure Remembers (latest : Option (AccessGraph × SharingGraph)) (t : Tracker) : Prop where
  current : t.places.Current
  handle? : ∀ name, t.handle? name = latest.bind fun folded => folded.2.handle? name
  projected : ∀ g shared, latest = some (g, shared) → g.Sound ∧ g.project = .ok shared

variable {latest : Option (AccessGraph × SharingGraph)} {t t' : Tracker}

theorem remembers_ofCount {count : Nat} (h : ofCount count = .ok t) : Remembers none t := by
  obtain ⟨w, -, rfl⟩ := ofCount_eq_ok h
  exact ⟨Nat.le_refl 0, fun name => Std.ExtTreeMap.getElem?_empty, fun _ _ hsome => nomatch hsome⟩

theorem Remembers.congr (remembers : Remembers latest t) (hplaces : t'.places = t.places) :
    Remembers latest t' where
  current := hplaces ▸ remembers.current
  handle? name := by
    rw [Tracker.handle?, hplaces]
    exact remembers.handle? name
  projected := remembers.projected

theorem places_act (t : Tracker) {action : Action} (h : action ≠ .fold) :
    (t.act action).places = t.places := by
  cases action with
  | record name objects =>
    rw [act_record]
    split <;> rfl
  | conflict node object =>
    rw [act_conflict]
    split <;> rfl
  | removeNode node => rfl
  | fold => exact absurd rfl h
  | objectUse => rfl
  | prune =>
    obtain ⟨_, _, heq⟩ := t.act_prune
    rw [heq]

theorem fold_eq_ok {shared : SharingGraph} (h : t.fold = .ok (shared, t')) :
    t.graph.project = .ok shared ∧
      t'.places = (t.places.announce.2.install t.places.announce.1 shared).2 := by
  unfold fold at h
  cases hproject : t.graph.project with
  | error cause =>
    rw [hproject] at h
    cases h
  | ok made =>
    rw [hproject] at h
    cases h
    exact ⟨rfl, rfl⟩

/-- A fold that comes to an end is what is remembered from then on. -/
theorem Remembers.fold (remembers : Remembers latest t) (sound : t.graph.Sound)
    {shared : SharingGraph} (h : t.fold = .ok (shared, t')) :
    Remembers (some (t.graph, shared)) t' := by
  obtain ⟨hproject, hplaces⟩ := fold_eq_ok h
  rw [Places.install_announced remembers.current] at hplaces
  obtain ⟨built, -, -⟩ := sound.project_eq_ok hproject
  constructor
  · rw [hplaces]
    exact Nat.le_refl _
  · intro name
    rw [Tracker.handle?, hplaces, Places.getElem?_handlesOf built.nodup_vertices]
    rfl
  · rintro g other heq
    cases heq
    exact ⟨sound, hproject⟩

end Tracker

namespace Service

def folded? (s : Service) : Step → Option (AccessGraph × SharingGraph)
  | .fold | .findGroups _ => s.fold.toOption.map fun (shared, _) => (s.tracker.graph, shared)
  | _ => none

variable {latest : Option (AccessGraph × SharingGraph)} {s : Service}

theorem folded?_of_action (s : Service) {a : Step} (h : a.action = .fold) :
    s.folded? a = s.tracker.fold.toOption.map fun (shared, _) => (s.tracker.graph, shared) := by
  have hfold : s.fold.toOption.map (fun (shared, _) => (s.tracker.graph, shared)) =
      s.tracker.fold.toOption.map fun (shared, _) => (s.tracker.graph, shared) := by
    unfold fold
    cases s.tracker.fold <;> rfl
  cases a with
  | fold => exact hfold
  | findGroups unseeded => exact hfold
  | _ => cases h

theorem folded?_of_other (s : Service) {a : Step} (h : a.action ≠ .fold) :
    s.folded? a = none := by
  cases a with
  | fold => exact absurd rfl h
  | findGroups unseeded => exact absurd rfl h
  | _ => rfl

theorem remembers_step (remembers : s.tracker.Remembers latest) (sound : s.tracker.graph.Sound)
    (a : Step) : (s.step a).tracker.Remembers ((s.folded? a).or latest) := by
  rw [(s.step_cases a).1]
  by_cases hfold : a.action = .fold
  · rw [s.folded?_of_action hfold, hfold, Tracker.act]
    cases h : s.tracker.fold with
    | error cause => exact remembers
    | ok folded => exact remembers.fold sound h
  · rw [s.folded?_of_other hfold, Option.none_or]
    exact remembers.congr (s.tracker.places_act hfold)

theorem remembers_run {settings : Settings} {runtime : Bool} {s₀ : Service}
    (h : ofSettings settings runtime = .ok s₀) (steps : List Step) :
    (s₀.run steps).tracker.Remembers (s₀.along folded? steps).getLast? := by
  obtain ⟨-, hfresh⟩ := ofSettings_eq_ok h
  induction steps using List.reverseRecOn with
  | nil => exact Tracker.remembers_ofCount hfresh
  | append_singleton steps a ih =>
    have hrun : s₀.run (steps ++ [a]) = (s₀.run steps).step a := List.foldl_concat ..
    have htold : (s₀.along folded? (steps ++ [a])).getLast? =
        ((s₀.run steps).folded? a).or (s₀.along folded? steps).getLast? := by
      rw [along_append, List.getLast?_append, along, along, List.append_nil]
      cases (s₀.run steps).folded? a <;> rfl
    have hsound : (s₀.run steps).tracker.graph.Sound := by
      rw [tracker_run]
      exact (Tracker.Traced.run hfresh _).sound
    rw [hrun, htold]
    exact remembers_step ih hsound a

/-- Handles are those of the graph that the latest fold gave, for exactly the identities that had an
edge at that fold. Before the first one there is none. -/
theorem handles_latest {settings : Settings} {runtime : Bool} {s₀ : Service}
    (h : ofSettings settings runtime = .ok s₀) (steps : List Step) (name : Identity) :
    (s₀.along folded? steps = [] → (s₀.run steps).tracker.handle? name = none) ∧
    (∀ g shared, (s₀.along folded? steps).getLast? = some (g, shared) →
      (s₀.run steps).tracker.handle? name = shared.handle? name ∧
      (∀ handle, (s₀.run steps).tracker.handle? name = some handle →
        handle.identity = name ∧ shared.identity? handle.position = some name) ∧
      (((s₀.run steps).tracker.handle? name).isSome ↔
        ∃ object weight, g.edgeWeight name object = some weight)) ∧
    (∀ later, (∀ a ∈ later, a.action ≠ .fold) →
      (s₀.run (steps ++ later)).tracker.handle? name = (s₀.run steps).tracker.handle? name) := by
  have remembers := remembers_run h steps
  refine ⟨?_, ?_, ?_⟩
  · intro hnone
    rw [remembers.handle?, hnone]
    rfl
  · intro g shared hlatest
    obtain ⟨hsound, hproject⟩ := remembers.projected g shared hlatest
    obtain ⟨built, hvertices, -⟩ := hsound.project_eq_ok hproject
    have hhandle : (s₀.run steps).tracker.handle? name = shared.handle? name := by
      rw [remembers.handle?, hlatest]
      rfl
    rw [hhandle]
    refine ⟨rfl, fun handle => (SharingGraph.handle?_eq_some built.nodup_vertices).mp, ?_⟩
    rw [SharingGraph.isSome_handle? built.nodup_vertices, hvertices, hsound.contains_iff]
    simp
  · intro later hlater
    have hquiet : (s₀.run steps).along folded? later = [] := by
      generalize s₀.run steps = s
      induction later generalizing s with
      | nil => rfl
      | cons a rest ih =>
        obtain ⟨hfirst, hrest⟩ := List.forall_mem_cons.mp hlater
        rw [along, s.folded?_of_other hfirst, ih hrest]
        rfl
    rw [(remembers_run h (steps ++ later)).handle?, remembers.handle?, along_append, hquiet,
      List.append_nil]

theorem handles_latest_pruned : ∃ s₀ s, ofSettings Settings.testing true = .ok s₀ ∧
    s = s₀.run [.record "b" [1], .record "a" [1], .fold, .prune, .prune, .record "c" [2]] ∧
    s.tracker.graph.identities = ["c"] ∧ s.tracker.handle? "b" = some ⟨"b", 1⟩ ∧
      s.tracker.handle? "c" = none := by
  have h : ofSettings Settings.testing true = .ok _ := rfl
  have hlatest := handles_latest h
    [.record "b" [1], .record "a" [1], .fold, .prune, .prune, .record "c" [2]]
  refine ⟨_, _, h, rfl, by decide, ?_, ?_⟩
  · rw [((hlatest "b").2.1 _ _ rfl).1]
    decide +kernel
  · rw [((hlatest "c").2.1 _ _ rfl).1]
    decide +kernel

end Service

end Cohort
