import Cohort.Proofs.AccessGraph.Expiry
import Cohort.Proofs.Stretches
import Cohort.Proofs.Views

/-! What the accesses come to depends on their counts in each period alone. In which order they
come, and how they are spread over access sets, decides about keys, slots and lists of edges, but
about no weight, no report and no group. -/

namespace Cohort

namespace Tracker

def between (n : Nat) (actions : List Action) : List Action :=
  stretch Action.isPrune n actions

/-- Histories with as many prunes, and with as many accesses of each pair between any two. -/
structure SameUse (actions others : List Action) : Prop where
  prunes : prunes actions = prunes others
  uses : ∀ n ≤ Tracker.prunes actions, ∀ name object,
    uses name object (between n actions) = uses name object (between n others)

theorem uses_cons (name : Identity) (object : ObjectId) (action : Action) (rest : List Action) :
    uses name object (action :: rest) =
      uses name object rest + if action.isUse name object then 1 else 0 :=
  List.countP_cons ..

theorem uses_afterPrune (name : Identity) (object : ObjectId) (n : Nat) (actions : List Action) :
    uses name object (afterPrune n actions) =
      uses name object (between n actions) + uses name object (afterPrune (n + 1) actions) := by
  induction actions generalizing n with
  | nil => cases n <;> rfl
  | cons action rest ih =>
    by_cases hprune : action.isPrune
    · have hnone : action.isUse name object = false := by
        cases action with
        | prune => rfl
        | _ => cases hprune
      cases n with
      | zero =>
        rw [between, stretch_zero_of_mark hprune, afterPrune_succ_cons, if_pos hprune,
          afterPrune_zero, afterPrune_zero, uses_cons, hnone]
        exact (Nat.zero_add _).symm
      | succ n =>
        rw [between, stretch_succ_of_mark hprune, afterPrune_succ_cons, afterPrune_succ_cons,
          if_pos hprune, if_pos hprune]
        exact ih n
    · have hplain : action.isPrune = false := by simpa using hprune
      cases n with
      | zero =>
        have hrest := ih 0
        rw [afterPrune_zero] at hrest
        rw [between, stretch_zero_of_plain hplain, afterPrune_succ_cons, if_neg hprune,
          afterPrune_zero, uses_cons, uses_cons, hrest]
        exact Nat.add_right_comm ..
      | succ n =>
        rw [between, stretch_succ_of_plain hplain, afterPrune_succ_cons, afterPrune_succ_cons,
          if_neg hprune, if_neg hprune]
        exact ih (n + 1)

theorem afterPrune_of_lt {n : Nat} {actions : List Action} (h : prunes actions < n) :
    afterPrune n actions = [] := by
  obtain ⟨m, rfl⟩ := Nat.exists_eq_add_of_lt h
  have hrest := afterPrune_append_of_lt m actions []
  rwa [List.append_nil, afterPrune_nil] at hrest

namespace SameUse

variable {actions others : List Action} (same : SameUse actions others)

include same

theorem afterPrune (n : Nat) (name : Identity) (object : ObjectId) :
    Tracker.uses name object (Tracker.afterPrune n actions) =
      Tracker.uses name object (Tracker.afterPrune n others) := by
  have hbeyond {m : Nat} (hlt : Tracker.prunes actions < m) :
      Tracker.uses name object (Tracker.afterPrune m actions) =
        Tracker.uses name object (Tracker.afterPrune m others) := by
    rw [afterPrune_of_lt hlt, afterPrune_of_lt (same.prunes ▸ hlt)]
  rcases Nat.lt_or_ge (Tracker.prunes actions) n with hlt | hle
  · exact hbeyond hlt
  · -- downwards from the last period, which nothing comes after
    induction hle using Nat.decreasingInduction with
    | self =>
      rw [uses_afterPrune, same.uses _ (Nat.le_refl _), hbeyond (Nat.lt_succ_self _),
        ← uses_afterPrune]
    | of_succ n hlt ih =>
      rw [uses_afterPrune, same.uses n (Nat.le_of_lt hlt), ih, ← uses_afterPrune]

theorem liveUses_eq (count : Nat) (name : Identity) (object : ObjectId) :
    liveUses count actions name object = liveUses count others name object := by
  rw [liveUses, liveUses, ← same.prunes, same.afterPrune]

/-- The period that one more prune opens has nothing in it on either side. -/
theorem concat_prune : SameUse (actions ++ [.prune]) (others ++ [.prune]) where
  prunes := by rw [prunes_append, prunes_append, same.prunes]
  uses n hn name object := by
    have hclosed (actions : List Action) : between n (actions ++ [.prune]) = between n actions :=
      stretch_concat_mark rfl n actions
    rw [hclosed, hclosed]
    rcases Nat.lt_or_ge (Tracker.prunes actions) n with hlt | hle
    · have hempty {actions : List Action} (hlt : Tracker.prunes actions < n) :
          between n actions = [] := stretch_of_lt hlt
      rw [hempty hlt, hempty (same.prunes ▸ hlt)]
    · exact same.uses n hle name object

section Fresh

variable {count : Nat} {t₀ : Tracker} (h : ofCount count = .ok t₀)

include h

theorem alike : (t₀.run actions).graph.Alike (t₀.run others).graph := by
  intro name object
  rw [(Traced.run h actions).edgeWeight, (Traced.run h others).edgeWeight, same.liveUses_eq]

theorem alike_prune : (t₀.run actions).prune.2.graph.Alike (t₀.run others).prune.2.graph := by
  have halike := same.concat_prune.alike h
  rwa [run_append, run_append] at halike

theorem isSome_rotate : (t₀.run actions).window.rotate.1.isSome =
    (t₀.run others).window.rotate.1.isSome := by
  have traced := Traced.run h actions
  have traced' := Traced.run h others
  have hsize : (t₀.run actions).window.latest.length = (t₀.run others).window.latest.length := by
    rw [Window.length_latest, Window.length_latest, traced.closed, traced'.closed, same.prunes]
  have hwithin : (t₀.run actions).window.Within := traced.balanced.within
  have hwithin' : (t₀.run others).window.Within := traced'.balanced.within
  rw [Window.rotate_fst hwithin, Window.rotate_fst hwithin', traced.retains, traced'.retains]
  rw [Bool.eq_iff_iff, Option.isSome_iff_ne_none, Option.isSome_iff_ne_none, ne_eq, ne_eq,
    List.getElem?_eq_none_iff, List.getElem?_eq_none_iff, hsize]

theorem report : (t₀.run actions).prune.1.consumed = (t₀.run others).prune.1.consumed ∧
    (t₀.run actions).prune.1.edges = (t₀.run others).prune.1.edges := by
  have hafter := same.alike_prune h
  have hexpired := same.isSome_rotate h
  cases hw : (t₀.run actions).window.rotate.1 with
  | none =>
    rw [hw, Option.isSome_none, eq_comm, Option.isSome_eq_false_iff, Option.isNone_iff_eq_none]
      at hexpired
    rw [prune_of_none hw, prune_of_none hexpired]
    exact ⟨rfl, rfl⟩
  | some period =>
    rw [hw, Option.isSome_some, eq_comm, Option.isSome_iff_exists] at hexpired
    obtain ⟨period', hw'⟩ := hexpired
    rw [prune_of_some hw, prune_of_some hw'] at hafter
    rw [prune_of_some hw, prune_of_some hw']
    exact ⟨rfl, (same.alike h).report_expire (Traced.run h actions).sound
      (Traced.run h others).sound (AccessGraph.distinct_entries _)
      (AccessGraph.distinct_entries _) hafter⟩

end Fresh

end SameUse

end Tracker

namespace Service

open Cohort.Random (Source)

theorem accessView_of_alike {s s' : Service} (alike : s.tracker.graph.Alike s'.tracker.graph)
    (sound : s.tracker.graph.Sound) (sound' : s'.tracker.graph.Sound)
    (hsettings : s.settings = s'.settings) {unseeded unseeded' : Source}
    (hseed : s.settings.seed.isSome ∨ unseeded = unseeded') :
    s.accessView unseeded = s'.accessView unseeded' := by
  have hweight : s.tracker.graph.edgeWeight = s'.tracker.graph.edgeWeight := by
    ext1 name
    ext1 object
    exact alike name object
  simp only [accessView, fold_fst, findGroups_fst, hweight, AccessGraph.identityCount,
    AccessGraph.objectCount, alike.identities sound sound', alike.objects sound sound',
    alike.edgeCount sound sound', alike.objectUse sound sound', alike.project sound sound',
    ← hsettings, Method.cluster_of_seed (m := s.settings.method) hseed]

def actions (steps : List Step) : List Tracker.Action :=
  steps.map Step.action

/-- What is shown around a prune: the accesses before it, its report of them, and the accesses
after it. -/
def around? (unseeded : Source) (s : Service) :
    Step → Option (AccessView × (Bool × Decayed) × AccessView)
  | .prune => some (s.accessView unseeded, (s.prune.1.consumed, s.prune.1.edges),
      s.prune.2.accessView unseeded)
  | _ => none

section Prunes

variable {ω : Type} {told told' : Service → Step → Option ω}

theorem prunes_split (before later : List Step) :
    Tracker.prunes (actions (before ++ .prune :: later)) =
      Tracker.prunes (actions before) + (Tracker.prunes (actions later) + 1) := by
  rw [actions, List.map_append, List.map_cons, Tracker.prunes_append, Tracker.prunes_cons]
  rfl

theorem exists_last_prune {steps : List Step} (h : Tracker.prunes (actions steps) ≠ 0) :
    ∃ before later, steps = before ++ .prune :: later ∧ Tracker.prunes (actions later) = 0 := by
  induction steps with
  | nil => exact absurd rfl h
  | cons a rest ih =>
    by_cases hrest : Tracker.prunes (actions rest) = 0
    · cases a with
      | prune => exact ⟨[], rest, rfl, hrest⟩
      | _ => exact absurd hrest h
    · obtain ⟨before, later, rfl, hlater⟩ := ih hrest
      exact ⟨a :: before, later, rfl, hlater⟩

def AtPrunes (told : Service → Step → Option ω) : Prop :=
  ∀ s a, a.isPrune = false → told s a = none

theorem AtPrunes.along_eq_nil (atPrunes : AtPrunes told) {steps : List Step}
    (h : Tracker.prunes (actions steps) = 0) (s : Service) : s.along told steps = [] := by
  induction steps generalizing s with
  | nil => rfl
  | cons a rest ih =>
    cases a with
    | prune => simp [actions, Step.action, Tracker.prunes_cons, Tracker.Action.isPrune] at h
    | _ =>
      rw [along, atPrunes s _ rfl]
      exact ih h _

theorem AtPrunes.along_congr (atPrunes : AtPrunes told) (atPrunes' : AtPrunes told')
    {s : Service} (n : Nat) {steps others : List Step}
    (hsteps : Tracker.prunes (actions steps) = n) (hothers : Tracker.prunes (actions others) = n)
    (htold : ∀ before later before' later', steps = before ++ .prune :: later →
      others = before' ++ .prune :: later' →
      Tracker.prunes (actions before) = Tracker.prunes (actions before') →
        told (s.run before) .prune = told' (s.run before') .prune) :
    s.along told steps = s.along told' others := by
  induction n generalizing steps others with
  | zero => rw [atPrunes.along_eq_nil hsteps, atPrunes'.along_eq_nil hothers]
  | succ n ih =>
    have hsome {k : Nat} (hk : k = n + 1) : k ≠ 0 := hk ▸ Nat.succ_ne_zero n
    obtain ⟨before, later, rfl, hlater⟩ := exists_last_prune (hsome hsteps)
    obtain ⟨before', later', rfl, hlater'⟩ := exists_last_prune (hsome hothers)
    rw [prunes_split, hlater] at hsteps
    rw [prunes_split, hlater'] at hothers
    have hbefore : s.along told before = s.along told' before' := by
      refine ih (Nat.succ.inj hsteps) (Nat.succ.inj hothers) ?_
      rintro first second first' second' rfl rfl hprunes
      exact htold first (second ++ .prune :: later) first' (second' ++ .prune :: later')
        (List.append_assoc ..) (List.append_assoc ..) hprunes
    have hlast := htold before later before' later' rfl rfl (by omega)
    rw [along_append, along_append, hbefore, along, along, hlast, atPrunes.along_eq_nil hlater,
      atPrunes'.along_eq_nil hlater']

end Prunes

section Counts

variable {settings : Settings} {runtime : Bool} {s₀ : Service}
  (h : ofSettings settings runtime = .ok s₀) {unseeded unseeded' : Source}
  (hseed : settings.seed.isSome ∨ unseeded = unseeded') {steps others : List Step}

include h hseed

theorem accessView_run (same : Tracker.SameUse (actions steps) (actions others)) :
    (s₀.run steps).accessView unseeded = (s₀.run others).accessView unseeded' := by
  obtain ⟨hsettings, hfresh⟩ := ofSettings_eq_ok h
  apply accessView_of_alike
  · rw [tracker_run, tracker_run]
    exact same.alike hfresh
  · rw [tracker_run]
    exact (Tracker.Traced.run hfresh _).sound
  · rw [tracker_run]
    exact (Tracker.Traced.run hfresh _).sound
  · rw [settings_run, settings_run]
  · rwa [settings_run, hsettings]

theorem around?_run (same : Tracker.SameUse (actions steps) (actions others)) :
    around? unseeded (s₀.run steps) .prune = around? unseeded' (s₀.run others) .prune := by
  have hreport : (s₀.run steps).prune.1.consumed = (s₀.run others).prune.1.consumed ∧
      (s₀.run steps).prune.1.edges = (s₀.run others).prune.1.edges := by
    have hreport := same.report (ofSettings_eq_ok h).2
    rwa [actions, actions, ← tracker_run, ← tracker_run] at hreport
  have hafter : (s₀.run steps).prune.2.accessView unseeded =
      (s₀.run others).prune.2.accessView unseeded' := by
    have hconcat (steps : List Step) : s₀.run (steps ++ [.prune]) = (s₀.run steps).prune.2 :=
      List.foldl_concat ..
    rw [← hconcat, ← hconcat]
    refine accessView_run h hseed ?_
    rw [actions, actions, List.map_append, List.map_append]
    exact same.concat_prune
  simp only [around?, accessView_run h hseed same, hreport, hafter]

end Counts

/-- Runs with the same counts in each period show the same around every prune, in whatever order and
in whatever access sets the accesses came. -/
theorem period_counts_decide {settings : Settings} {runtime : Bool} {s₀ : Service}
    (h : ofSettings settings runtime = .ok s₀) {steps others : List Step}
    (hprunes : Tracker.prunes (actions steps) = Tracker.prunes (actions others))
    (huses : ∀ n < Tracker.prunes (actions steps), ∀ name object,
      Tracker.uses name object (Tracker.between n (actions steps)) =
        Tracker.uses name object (Tracker.between n (actions others)))
    {unseeded unseeded' : Source} (hseed : settings.seed.isSome ∨ unseeded = unseeded') :
    s₀.along (around? unseeded) steps = s₀.along (around? unseeded') others ∧
    ((∀ name object,
        Tracker.uses name object
            (Tracker.between (Tracker.prunes (actions steps)) (actions steps)) =
          Tracker.uses name object
            (Tracker.between (Tracker.prunes (actions steps)) (actions others))) →
      (s₀.run steps).accessView unseeded = (s₀.run others).accessView unseeded' ∧
      ∀ orders orders', (s₀.run steps).tracker.graph.fold orders =
        (s₀.run others).tracker.graph.fold orders') := by
  have hquiet (unseeded : Source) : AtPrunes (around? unseeded) := by
    intro s a hplain
    cases a with
    | prune => cases hplain
    | _ => rfl
  constructor
  · refine (hquiet unseeded).along_congr (hquiet unseeded') _ rfl hprunes.symm ?_
    rintro before later before' later' rfl rfl hbefore
    refine around?_run h hseed ⟨hbefore, fun n hn name object => ?_⟩
    have hcut {before later : List Step} (hn : n ≤ Tracker.prunes (actions before)) :
        Tracker.between n (actions (before ++ .prune :: later)) =
          Tracker.between n (actions before) := by
      rw [actions, List.map_append, List.map_cons]
      exact stretch_append_mark rfl hn _
    have hlt : n < Tracker.prunes (actions (before ++ .prune :: later)) := by
      rw [prunes_split]
      omega
    have hsame := huses n hlt name object
    rwa [hcut hn, hcut (hbefore ▸ hn)] at hsame
  · intro hlast
    have same : Tracker.SameUse (actions steps) (actions others) := by
      refine ⟨hprunes, fun n hn name object => ?_⟩
      rcases Nat.lt_or_eq_of_le hn with hlt | rfl
      · exact huses n hlt name object
      · exact hlast name object
    obtain ⟨-, hfresh⟩ := ofSettings_eq_ok h
    refine ⟨accessView_run h hseed same, ?_⟩
    rw [tracker_run, tracker_run]
    exact (same.alike hfresh).fold (Tracker.Traced.run hfresh _).sound
      (Tracker.Traced.run hfresh _).sound

theorem period_counts_decide_two_sets : ∃ s₀, ofSettings Settings.testing true = .ok s₀ ∧
    (s₀.run [.record "a" [1, 2]]).tracker.graph.key? "a" 1 ≠
      (s₀.run [.record "a" [2], .fold, .record "a" [1]]).tracker.graph.key? "a" 1 ∧
    ∀ unseeded unseeded',
      s₀.along (around? unseeded) [.record "a" [1, 2], .prune, .prune] =
        s₀.along (around? unseeded') [.record "a" [2], .fold, .record "a" [1], .prune, .prune] := by
  have h : ofSettings Settings.testing true = .ok _ := rfl
  refine ⟨_, h, by decide, fun unseeded unseeded' => ?_⟩
  refine (period_counts_decide h ?_ ?_ (.inl rfl)).1
  · rfl
  · intro n hn name object
    match n, hn with
    | 0, _ =>
      change Tracker.uses name object [.record "a" [1, 2]] =
        Tracker.uses name object [.record "a" [2], .fold, .record "a" [1]]
      have haccepted : Tracker.Action.accepted "a" [1, 2] ∧ Tracker.Action.accepted "a" [2] ∧
          Tracker.Action.accepted "a" [1] := by decide
      simp only [Tracker.uses, List.countP_cons, List.countP_nil, Tracker.Action.isUse, haccepted,
        Bool.and_true, List.contains_cons, List.contains_nil, Bool.or_false]
      grind
    | 1, _ => rfl

end Service

end Cohort
