import Cohort.Proofs.Agreement
import Cohort.Proofs.Communities
import Cohort.Proofs.Usage
import Cohort.Trial

/-! Trials without noise. No group mixes communities, and where every access touches the whole pool
and passes come to an end, the groups found are the communities. -/

namespace Cohort

open Cohort.Random (Source)
open Tracker (Action uses)

namespace Trial

theorem ofSettings_cases {settings : Settings} (hvalid : settings.validate = .ok ())
    (runtime : Bool) :
    (∃ cause, Service.ofSettings settings runtime = .error (.overflow cause)) ∨
    ∃ t₀ service, Tracker.ofCount settings.periods = .ok t₀ ∧
      Service.ofSettings settings runtime = .ok service ∧ service.settings = settings ∧
        service.tracker = t₀ := by
  obtain ⟨-, hperiods, hiterations⟩ := Settings.validate_eq_ok.mp hvalid
  have hcheck : settings.method.check = .ok () :=
    if_neg (Nat.ne_of_gt hiterations)
  unfold Service.ofSettings Tracker.ofCount Window.ofCount
  rw [hvalid, hcheck, if_neg (Nat.ne_of_gt hperiods)]
  cases Window.checkRoom settings.periods with
  | error cause => exact .inl ⟨cause, rfl⟩
  | ok => exact .inr ⟨_, _, rfl, rfl, rfl, rfl⟩

theorem recordAll_eq_ok (events : List Event) (service : Service)
    (h : ∀ event ∈ events, Action.accepted event.identity event.objects = true) :
    recordAll service events =
      .ok { service with tracker := service.tracker.run (events.map Event.action) } := by
  unfold recordAll
  induction events generalizing service with
  | nil => rfl
  | cons event rest ih =>
    obtain ⟨hevent, hrest⟩ := List.forall_mem_cons.mp h
    have hrecord := Tracker.record_of_accepted (t := service.tracker) hevent
    have hact : service.tracker.act event.action =
        service.tracker.recorded event.identity (Tracker.accessSet event.objects) := by
      rw [Event.action, Tracker.act_record, if_pos hevent]
    rw [List.foldlM_cons, Service.record, hrecord]
    refine (ih _ hrest).trans ?_
    rw [List.map_cons, Tracker.run, Tracker.run, List.foldl_cons, hact]

structure Staged (w : Workload) (config : Settings) (result : Stage) : Prop where
  settings : result.service.settings = config
  planted : result.planted = w.planted
  shared : ∃ t₀, Tracker.ofCount config.periods = .ok t₀ ∧
    (t₀.run ((w.events w.source).1.map Event.action)).graph.project = .ok result.shared

theorem stage_cases {w : Workload} {settings : Settings} (hvalid : settings.validate = .ok ())
    (hquiet : (w.probability == 0.0) = true) :
    (∃ cause, stage w settings = .error (.overflow cause)) ∨
    ∃ result, stage w settings = .ok result ∧ Staged w settings result := by
  unfold stage
  rcases ofSettings_cases hvalid false with ⟨cause, hservice⟩ |
    ⟨t₀, service, hfresh, hservice, hsettings, rfl⟩
  · rw [hservice]
    exact .inl ⟨cause, rfl⟩
  cases hplant : w.plant with
  | error cause =>
    rw [hservice]
    exact .inl ⟨cause, rfl⟩
  | ok planted =>
    obtain ⟨-, rfl⟩ := Workload.plant_eq_ok.mp hplant
    cases hstream : w.stream w.source with
    | error cause =>
      rw [hservice]
      exact .inl ⟨cause, rfl⟩
    | ok made =>
      obtain ⟨-, rfl⟩ := Workload.stream_eq_ok.mp hstream
      have hrecord := recordAll_eq_ok _ service (Workload.accepted_of_quiet hquiet w.source)
      cases hproject : (service.tracker.run
          ((w.events w.source).1.map Event.action)).graph.project with
      | error cause =>
        refine .inl ⟨cause, ?_⟩
        simp [hservice, hrecord, Except.mapError, bind, Except.bind, Service.fold, Tracker.fold,
          hproject]
      | ok shared =>
        simp only [hservice, hrecord, Except.mapError, bind, Except.bind, pure, Except.pure,
          Service.fold, Tracker.fold, hproject]
        exact .inr ⟨_, rfl, hsettings, rfl, _, hfresh, hproject⟩

section Live

variable {w : Workload} {settings : Settings} {result : Stage}

theorem use_of_events {t₀ : Tracker} {count : Nat} (h : Tracker.ofCount count = .ok t₀)
    (events : List Event) (name : Identity) (object : ObjectId) :
    (t₀.run (events.map Event.action)).graph.use name object =
      uses name object (events.map Event.action) := by
  have htraced := Tracker.Traced.run h (events.map Event.action)
  have hprunes : Tracker.prunes (events.map Event.action) = 0 := by
    rw [Tracker.prunes, List.countP_map]
    exact List.countP_eq_zero.mpr fun _ _ => Bool.false_ne_true
  have hlive : Tracker.liveUses count (events.map Event.action) name object =
      uses name object (events.map Event.action) := by
    rw [Tracker.liveUses, hprunes, Nat.zero_sub, Tracker.afterPrune_zero]
  rw [AccessGraph.use, htraced.edgeWeight, hlive]
  split
  next hzero => rw [hzero, Option.getD_none]
  next => rw [Option.getD_some]

theorem Staged.apart (staged : Staged w settings result)
    (hquiet : (w.probability == 0.0) = true) :
    ∃ g, w.Apart g result.shared ∧ (w.objects ≤ w.perAccess → 0 < w.objects → 0 < w.accesses →
      w.Whole g result.shared) := by
  obtain ⟨t₀, hfresh, hproject⟩ := staged.shared
  have huse := use_of_events hfresh (w.events w.source).1
  have hapart : w.Apart _ result.shared :=
    { sound := (Tracker.Traced.run hfresh _).sound
      project := hproject
      own := fun name object hpositive =>
        Workload.place_of_use hquiet w.source (huse name object ▸ hpositive) }
  refine ⟨_, hapart, fun hwhole hobjects haccesses => ⟨hapart, hobjects, haccesses, ?_⟩⟩
  intro community hcommunity number hnumber place hplace
  rw [huse]
  exact Workload.uses_of_whole hquiet w.source hwhole hcommunity hnumber hplace

theorem finish_cases (result : Stage) (unseeded : Source) :
    (∃ cause, finish result unseeded = .error (.overflow cause)) ∨
    ∃ clustering t, result.service.settings.method.cluster unseeded result.shared = .ok clustering ∧
      finish result unseeded = .ok t ∧ t.groups = clustering.groups ∧
        t.planted = result.planted ∧ t.links = result.shared.edgeCount ∧
          t.jaccard = Cohort.jaccard clustering.groups result.planted := by
  unfold finish Service.cluster
  cases hcluster : result.service.settings.method.cluster unseeded result.shared with
  | error cause => exact .inl ⟨cause, rfl⟩
  | ok clustering =>
    cases hscore : result.shared.modularity clustering.groups with
    | error cause =>
      refine .inl ⟨cause, ?_⟩
      simp [Except.mapError, bind, Except.bind, pure, Except.pure, hscore]
    | ok score =>
      simp only [Except.mapError, bind, Except.bind, pure, Except.pure, hscore]
      exact .inr ⟨_, _, rfl, rfl, rfl, rfl, rfl, rfl⟩

end Live

section Found

variable {w : Workload} {g : AccessGraph} {shared : SharingGraph} {m : Method} {unseeded : Source}
  {clustering : Clustering}

theorem exists_identity (apart : w.Apart g shared) (h : m.cluster unseeded shared = .ok clustering)
    {group : Group} (hgroup : group ∈ clustering.groups) :
    ∃ community < w.communities, ∃ number < w.identities,
      Workload.identity community number ∈ group.members := by
  obtain ⟨name, hname⟩ := Method.exists_member h hgroup
  obtain ⟨position, hposition, -⟩ := (Method.mem_members h hgroup).mp hname
  obtain ⟨community, hcommunity, number, hnumber, rfl⟩ :=
    apart.identity_of_mem (Array.mem_of_getElem? hposition)
  exact ⟨community, hcommunity, number, hnumber, hname⟩

/-- No group mixes communities. -/
theorem group_subset_planted (apart : w.Apart g shared)
    (h : m.cluster unseeded shared = .ok clustering) {group : Group}
    (hgroup : group ∈ clustering.groups) :
    ∃ community ∈ w.planted, ∀ name, name ∈ group.members → name ∈ community.members := by
  obtain ⟨community, hcommunity, number, hnumber, hfirst⟩ := exists_identity apart h hgroup
  refine ⟨_, Workload.mem_planted.mpr ⟨community, hcommunity, rfl⟩, fun name hname => ?_⟩
  have hclass := Method.class_unique h apart.divided hgroup hfirst hname
  rw [Workload.communityOf?_identity hcommunity hnumber] at hclass
  exact Workload.mem_ofList.mpr (Workload.communityOf?_eq_some.mp hclass.symm).2

section Whole

variable (whole : w.Whole g shared) (h : m.cluster unseeded shared = .ok clustering)
  (hconverged : clustering.outcome.converged = true)

include whole h hconverged

/-- A group with one identity of a community is that community. -/
theorem members_eq_planted {group : Group} (hgroup : group ∈ clustering.groups)
    {community number : Nat} (hcommunity : community < w.communities)
    (hnumber : number < w.identities)
    (hmember : Workload.identity community number ∈ group.members) :
    group.members = (Group.ofList community (w.members community)).members := by
  have hown := Workload.communityOf?_identity hcommunity hnumber
  apply Std.ExtTreeSet.ext_mem
  intro name
  rw [Workload.mem_ofList]
  constructor
  · intro hname
    have hclass := Method.class_unique h whole.divided hgroup hmember hname
    rw [hown] at hclass
    exact (Workload.communityOf?_eq_some.mp hclass.symm).2
  · intro hname
    have hclass : w.communityOf? name = some community :=
      Workload.communityOf?_eq_some.mpr ⟨hcommunity, hname⟩
    obtain ⟨number', hnumber', rfl⟩ := Workload.mem_members.mp hname
    have hvertex : Workload.identity community number' ∈ shared.vertices :=
      whole.mem_vertices.mpr
        ⟨community, hcommunity, number', hnumber', rfl⟩
    exact Method.mem_of_class h whole.cliques (Nat.mul_pos whole.objects whole.accesses) hconverged
      hgroup hmember hvertex (hown.trans hclass.symm)

theorem members_perm_planted (hidentities : 0 < w.identities) :
    (clustering.groups.map (·.members)).Perm (w.planted.map (·.members)) := by
  obtain ⟨built, -, -⟩ := whole.sound.project_eq_ok whole.project
  rw [List.perm_ext_iff_of_nodup (Method.nodup_members h built)
    (w.nodup_planted_members hidentities)]
  intro members
  simp only [List.mem_map]
  constructor
  · rintro ⟨group, hgroup, rfl⟩
    obtain ⟨community, hcommunity, number, hnumber, hmember⟩ :=
      exists_identity whole.toApart h hgroup
    exact ⟨_, Workload.mem_planted.mpr ⟨community, hcommunity, rfl⟩,
      (members_eq_planted whole h hconverged hgroup hcommunity hnumber hmember).symm⟩
  · rintro ⟨planted, hplanted, rfl⟩
    obtain ⟨community, hcommunity, rfl⟩ := Workload.mem_planted.mp hplanted
    have hvertex : Workload.identity community 0 ∈ shared.vertices :=
      whole.mem_vertices.mpr ⟨community, hcommunity, 0, hidentities, rfl⟩
    obtain ⟨group, hgroup, hmember⟩ := Method.exists_group h hvertex
    refine ⟨group, hgroup, ?_⟩
    exact members_eq_planted whole h hconverged hgroup hcommunity hidentities hmember

end Whole

theorem pairs_planted_eq (whole : w.Whole g shared) :
    Agreement.pairs w.planted = shared.edgeCount ∧ shared.edgeCount < wordBound := by
  obtain ⟨built, -, hlinks⟩ := whole.sound.project_eq_ok whole.project
  have hedges := whole.cliques.edgeCount_eq built.simple fun _ h => whole.length_fellows h
  have hpairs := w.pairs_planted
  rw [whole.vertexCount_eq] at hedges
  have hpositive : ∀ weight ∈ shared.links.map (·.weight), 0 < weight := by
    intro weight hmem
    obtain ⟨link, hlink, rfl⟩ := List.mem_map.mp hmem
    obtain ⟨_, _, -, -, -, -, hweight⟩ := (hlinks link).mp hlink
    exact hweight
  have htotal := length_le_addUp hpositive
  rw [List.length_map] at htotal
  exact ⟨by omega, Nat.lt_of_le_of_lt htotal built.totalWeight_lt⟩

end Found

/-- Trials without noise never mix communities. Where every access touches the whole pool and the
passes come to an end, the groups found are the communities. -/
theorem communities_recovered {w : Workload} {settings : Settings}
    (hvalid : settings.validate = .ok ()) (hquiet : (w.probability == 0.0) = true)
    (unseeded : Source) :
    (∃ cause, run w settings unseeded = .error (.overflow cause)) ∨
    ∃ result t, stage w settings = .ok result ∧ run w settings unseeded = .ok t ∧
      t.planted = w.planted ∧
      (∀ group ∈ t.groups, ∃ community ∈ t.planted,
        ∀ name, name ∈ group.members → name ∈ community.members) ∧
      (0 < w.identities → w.objects ≤ w.perAccess → 0 < w.objects → 0 < w.accesses →
        (∃ clustering, settings.method.cluster unseeded result.shared = .ok clustering ∧
          clustering.outcome.converged = true) ∨
          result.shared.totalWeight < settings.iterations →
        (t.groups.map (·.members)).Perm (t.planted.map (·.members)) ∧
        t.links = w.communities * w.identities * (w.identities - 1) / 2 ∧
        (Agreement.ofGroups t.groups t.planted).both =
          (Agreement.ofGroups t.groups t.planted).total ∧
        t.jaccard = 1.0) := by
  rcases stage_cases hvalid hquiet with ⟨cause, hstage⟩ | ⟨result, hstage, staged⟩
  · refine .inl ⟨cause, ?_⟩
    rw [run, hstage]
    rfl
  -- the stage is the same for all sources, only what is found depends on them
  rcases finish_cases result unseeded with ⟨cause, hfinish⟩ |
    ⟨clustering, t, hcluster, hfinish, hgroups, hplanted, hlinks, hjaccard⟩
  · refine .inl ⟨cause, ?_⟩
    rw [run, hstage]
    exact hfinish
  have hrun : run w settings unseeded = .ok t := by
    rw [run, hstage]
    exact hfinish
  obtain ⟨g, hapart, hwhole⟩ := staged.apart hquiet
  rw [staged.settings] at hcluster
  rw [staged.planted] at hplanted hjaccard
  refine .inr ⟨result, t, hstage, hrun, hplanted, ?_, ?_⟩
  · intro group hgroup
    rw [hgroups] at hgroup
    rw [hplanted]
    exact group_subset_planted hapart hcluster hgroup
  intro hidentities hpool hobjects haccesses hend
  have whole := hwhole hpool hobjects haccesses
  obtain ⟨built, -, -⟩ := whole.sound.project_eq_ok whole.project
  have hconverged : clustering.outcome.converged = true := by
    rcases hend with ⟨other, hother, hconverged⟩ | hcap
    · cases hother.symm.trans hcluster
      exact hconverged
    · rw [(Method.cluster_eq_ok hcluster).1]
      exact ((settings.method.run_bounded built.simple unseeded
        (Method.size_initial result.shared)).2 (Nat.lt_of_le_of_lt (Nat.sub_le _ _) hcap)).1
  have hperm := members_perm_planted whole hcluster hconverged hidentities
  have hagreement := Agreement.ofGroups_of_perm w.nodup_planted hperm
  obtain ⟨hpairs, hword⟩ := pairs_planted_eq whole
  rw [hgroups, hplanted, hlinks, hjaccard]
  refine ⟨hperm, ?_, ?_, ?_⟩
  · have hcount := w.pairs_planted
    omega
  · rw [hagreement]
  · rw [Cohort.jaccard, hagreement]
    exact Agreement.ratio_of_whole (hpairs ▸ hword)

theorem communities_recovered_two_pairs :
    ∃ t, run ⟨2, 2, 1, 1, 1, 0.0, 42⟩ .testing (.ofSeed 7) = .ok t ∧
      (t.groups.map (·.members)).Perm (t.planted.map (·.members)) ∧ t.links = 2 ∧
        t.jaccard = 1.0 := by
  have hok : (run ⟨2, 2, 1, 1, 1, 0.0, 42⟩ .testing (.ofSeed 7)).isOk = true := by decide +kernel
  have htotal : ((stage ⟨2, 2, 1, 1, 1, 0.0, 42⟩ .testing).map (·.shared.totalWeight)).toOption =
      some 2 := by decide +kernel
  rcases @communities_recovered ⟨2, 2, 1, 1, 1, 0.0, 42⟩ .testing rfl
    (by decide +kernel) (.ofSeed 7) with ⟨cause, herror⟩ |
      ⟨result, t, hstage, hrun, -, -, hrecovered⟩
  · rw [herror] at hok
    cases hok
  · rw [hstage] at htotal
    have hcap : result.shared.totalWeight < Settings.testing.iterations :=
      Nat.lt_of_le_of_lt (Nat.le_of_eq (Option.some.inj htotal)) (by decide)
    obtain ⟨hperm, hlinks, -, hjaccard⟩ := hrecovered (by decide) (by decide) (by decide)
      (by decide) (.inr hcap)
    exact ⟨t, hrun, hperm, hlinks, hjaccard⟩

end Trial

end Cohort
