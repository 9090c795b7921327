import Cohort.Proofs.Communities
import Cohort.Proofs.Usage

/-! Streams are well formed whatever the sizes, the noise and the seed: everyone has all of their
accesses, and every access takes distinct objects out of the pools. The planted groups share no
identity, since a name tells community and number even where these outgrow the digits that are
filled up with zeros. -/

namespace Cohort

open Cohort.Random

namespace Workload

variable {w : Workload}

theorem probability_bounds (w : Workload) : 0.0 ≤ w.probability ∧ w.probability ≤ 1.0 := by
  unfold probability
  split
  next => exact ⟨rfl, rfl⟩
  next hlow =>
    split
    next => exact ⟨rfl, rfl⟩
    next hhigh =>
      simp only [Bool.or_eq_true, decide_eq_true_eq, not_or, Bool.not_eq_true] at hlow
      exact Source.le_of_not_lt hlow.1 hlow.2 hhigh

/-- The communities whose pools can serve an identity: its own one, and others through noise. -/
structure Reaches (w : Workload) (community other : Nat) : Prop where
  inside : other < w.communities
  own : w.communities ≤ 1 ∨ (w.probability == 0.0) = true → other = community
  foreign : 1 < w.communities → (w.probability == 1.0) = true → other ≠ community

theorem add_mod_ne {count place step : Nat} (hplace : place < count) (hstep : 1 + step < count) :
    (place + (1 + step)) % count ≠ place := by
  rcases Nat.lt_or_ge (place + (1 + step)) count with hlt | hge
  · rw [Nat.mod_eq_of_lt hlt]
    omega
  · rw [Nat.mod_eq_sub_mod hge, Nat.mod_eq_of_lt (by omega)]
    omega

theorem reaches_serving {community : Nat} (h : community < w.communities) (s : Source) :
    w.Reaches community (w.serving community s).1 := by
  unfold serving
  split
  next hmany =>
    cases hchance : (s.chance w.probability).1 with
    | true =>
      have hstep := (s.chance w.probability).2.below64_lt (Nat.sub_pos_of_lt hmany)
      simp only [hchance, if_true]
      constructor
      · exact Nat.mod_lt _ (Nat.zero_lt_of_lt hmany)
      · rintro (hfew | hquiet)
        · exact absurd hmany (Nat.not_lt.mpr hfew)
        · exact absurd (Source.chance_of_zero hquiet s) (by simp [hchance])
      · intro _ _
        exact add_mod_ne h (by omega)
    | false =>
      simp only [hchance, Bool.false_eq_true, if_false]
      refine ⟨h, fun _ => rfl, fun _ hcertain => ?_⟩
      exact absurd (Source.chance_of_one hcertain s) (by simp [hchance])
  next hfew => exact ⟨h, fun _ => rfl, fun hmany => absurd hmany hfew⟩

def Served (w : Workload) (community number : Nat) (object : ObjectId) : Prop :=
  number < w.objects ∧ ∃ other, w.Reaches community other ∧ object = w.object other number

theorem served_serve {community : Nat} (h : community < w.communities) {numbers : List Nat}
    (hbelow : ∀ number ∈ numbers, number < w.objects) (s : Source) :
    List.Forall₂ (w.Served community) numbers (w.serve community numbers s).1 := by
  induction numbers generalizing s with
  | nil => exact .nil
  | cons number rest ih =>
    obtain ⟨hnumber, hrest⟩ := List.forall_mem_cons.mp hbelow
    exact .cons ⟨hnumber, _, reaches_serving h s, rfl⟩ (ih hrest _)

def numberOf (w : Workload) (object : ObjectId) : Nat :=
  (object - 1) % w.objects

theorem Served.numberOf {community number : Nat} {object : ObjectId}
    (h : w.Served community number object) : w.numberOf object = number := by
  obtain ⟨hnumber, other, -, rfl⟩ := h
  rw [Workload.numberOf, object, Nat.add_sub_cancel_left, Nat.mul_comm, Nat.mul_add_mod,
    Nat.mod_eq_of_lt hnumber]

theorem Served.bounds {community number : Nat} {object : ObjectId}
    (h : w.Served community number object) :
    1 ≤ object ∧ object ≤ w.communities * w.objects := by
  obtain ⟨hnumber, other, hreaches, rfl⟩ := h
  have hpools : (other + 1) * w.objects ≤ w.communities * w.objects :=
    Nat.mul_le_mul_right _ hreaches.inside
  rw [Nat.succ_mul] at hpools
  constructor
  · exact Nat.le_add_right 1 _
  · calc 1 + (other * w.objects + number)
        ≤ other * w.objects + w.objects := by omega
      _ ≤ w.communities * w.objects := hpools

theorem Served.mem_pool {community number : Nat} {object : ObjectId}
    (h : w.Served community number object)
    (hown : w.communities ≤ 1 ∨ (w.probability == 0.0) = true) : object ∈ w.pool community := by
  obtain ⟨hnumber, other, hreaches, rfl⟩ := h
  rw [hreaches.own hown]
  exact List.mem_map_of_mem (List.mem_range.mpr hnumber)

theorem Served.not_mem_pool {community number : Nat} {object : ObjectId}
    (h : w.Served community number object) (hmany : 1 < w.communities)
    (hcertain : (w.probability == 1.0) = true) : object ∉ w.pool community := by
  obtain ⟨hnumber, other, hreaches, rfl⟩ := h
  intro hpool
  obtain ⟨place, hplace, hsame⟩ := List.mem_map.mp hpool
  have hcommunity := (object_inj (List.mem_range.mp hplace) hnumber hsame).1
  exact hreaches.foreign hmany hcertain hcommunity.symm

theorem nodup_of_served {community : Nat} {numbers : List Nat} {objects : List ObjectId}
    (h : List.Forall₂ (w.Served community) numbers objects) (hnodup : numbers.Nodup) :
    objects.Nodup := by
  have hnumbers : objects.map w.numberOf = numbers := by
    apply Eq.symm
    rw [← List.forall₂_eq_eq_eq, List.forall₂_map_right_iff]
    exact h.imp fun _ _ hserved => hserved.numberOf.symm
  apply List.Nodup.of_map w.numberOf
  rwa [hnumbers]

/-- What is to be expected of an event of a community: as many distinct objects as asked for and
there are, with numbers that occur and that every tracker accepts, from the community's own pool
where nothing can be redirected and from other pools where everything is. -/
structure Regular (w : Workload) (community : Nat) (event : Event) : Prop where
  length : event.objects.length = min w.perAccess w.objects
  nodup : event.objects.Nodup
  bounds : ∀ object ∈ event.objects, 1 ≤ object ∧ object ≤ w.communities * w.objects
  accepted : ∀ t : Tracker, ∃ t', t.record event.identity event.objects = .ok t'
  own : w.communities ≤ 1 ∨ (w.probability == 0.0) = true →
    ∀ object ∈ event.objects, object ∈ w.pool community
  foreign : 1 < w.communities → (w.probability == 1.0) = true →
    ∀ object ∈ event.objects, object ∉ w.pool community

structure Suits (w : Workload) (slot : Nat × Nat) (event : Event) : Prop where
  identity : event.identity = identity slot.1 slot.2
  regular : w.Regular slot.1 event

theorem suits_event {slot : Nat × Nat} (h : slot.1 < w.communities) (s : Source) :
    w.Suits slot (w.event slot s).1 := by
  have hselected := s.selected_sample w.objects w.perAccess
  have hserved := served_serve h hselected.below (s.sample w.objects w.perAccess).2
  change List.Forall₂ _ _ (w.event slot s).1.objects at hserved
  have hone : ∀ object ∈ (w.event slot s).1.objects, ∃ number, w.Served slot.1 number object := by
    intro object hobject
    obtain ⟨number, -, hnumber⟩ := exists_of_mem_forall₂ hserved hobject
    exact ⟨number, hnumber⟩
  have hbounds : ∀ object ∈ (w.event slot s).1.objects,
      1 ≤ object ∧ object ≤ w.communities * w.objects := by
    intro object hobject
    obtain ⟨number, hnumber⟩ := hone object hobject
    exact hnumber.bounds
  refine ⟨rfl, ?_, nodup_of_served hserved hselected.nodup, hbounds, ?_, ?_, ?_⟩
  · rw [← hserved.length_eq, hselected.length]
  · intro t
    exact ⟨_, Tracker.record_of_accepted
      (accepted_identity fun object hobject => (hbounds object hobject).1)⟩
  · intro hown object hobject
    obtain ⟨number, hnumber⟩ := hone object hobject
    exact hnumber.mem_pool hown
  · intro hmany hcertain object hobject
    obtain ⟨number, hnumber⟩ := hone object hobject
    exact hnumber.not_mem_pool hmany hcertain

theorem length_slots (w : Workload) :
    w.slots.length = w.communities * w.identities * w.accesses := by
  rw [slots_eq, List.length_flatten, List.map_replicate, List.sum_replicate_nat, everyone_eq,
    List.length_product, List.length_range, List.length_range, Nat.mul_comm]

theorem exists_suiting (w : Workload) (s : Source) :
    ∃ events, List.Forall₂ w.Suits w.slots events ∧ (w.events s).1.Perm events :=
  exists_events_perm (fun _ hslot => suits_event (mem_slots hslot).1) s

theorem exists_slot {s : Source} {event : Event} (hevent : event ∈ (w.events s).1) :
    ∃ community < w.communities, ∃ number < w.identities,
      event.identity = identity community number ∧ w.Regular community event := by
  obtain ⟨events, hsuits, hperm⟩ := w.exists_suiting s
  obtain ⟨slot, hslot, hsuit⟩ := exists_of_mem_forall₂ hsuits (hperm.mem_iff.mp hevent)
  obtain ⟨hcommunity, hnumber⟩ := mem_slots hslot
  exact ⟨slot.1, hcommunity, slot.2, hnumber, hsuit.identity, hsuit.regular⟩

theorem count_identity (w : Workload) (s : Source) {community number : Nat}
    (hcommunity : community < w.communities) (hnumber : number < w.identities) :
    ((w.events s).1.map (·.identity)).count (identity community number) = w.accesses := by
  obtain ⟨events, hsuits, hperm⟩ := w.exists_suiting s
  have hslots : w.slots.count (community, number) =
      events.countP fun event => event.identity == identity community number := by
    refine countP_forall₂ hsuits fun slot event hsuit => ?_
    rw [hsuit.identity, Bool.eq_iff_iff, beq_iff_eq, beq_iff_eq]
    constructor
    · rintro rfl
      rfl
    · intro hsame
      obtain ⟨hfirst, hsecond⟩ := identity_inj hsame
      exact Prod.ext hfirst hsecond
  rw [(hperm.map _).count_eq, List.count, List.countP_map]
  rw [count_slots, if_pos ⟨hcommunity, hnumber⟩] at hslots
  exact hslots.symm

/-- A stream comes about exactly where its sizes fit. It holds all the accesses of everyone and no
others, each of them with the objects that are to be expected, whatever the noise. -/
theorem stream_well_formed (w : Workload) (s : Source) :
    (∀ made, w.stream s = .ok made ↔ w.Fits ∧ made = w.events s) ∧
    (0.0 ≤ w.probability ∧ w.probability ≤ 1.0) ∧
    (w.events s).1.length = w.communities * w.identities * w.accesses ∧
    (∀ community < w.communities, ∀ number < w.identities,
      ((w.events s).1.map (·.identity)).count (identity community number) = w.accesses) ∧
    ∀ event ∈ (w.events s).1, ∃ community < w.communities, ∃ number < w.identities,
      event.identity = identity community number ∧ w.Regular community event := by
  refine ⟨fun _ => stream_eq_ok, w.probability_bounds, ?_, ?_, fun _ => exists_slot⟩
  · obtain ⟨events, hsuits, hperm⟩ := w.exists_suiting s
    rw [hperm.length_eq, ← hsuits.length_eq, length_slots]
  · intro community hcommunity number hnumber
    exact w.count_identity s hcommunity hnumber

theorem countP_planted {community number : Nat} (hcommunity : community < w.communities)
    (hnumber : number < w.identities) :
    w.planted.countP (·.contains (identity community number)) = 1 := by
  have hmember : identity community number ∈ w.members community :=
    mem_members.mpr ⟨number, hnumber, rfl⟩
  have hsame (other : Nat) :
      (Group.ofList other (w.members other)).contains (identity community number) =
        (other == community) := by
    rw [Bool.eq_iff_iff, beq_iff_eq]
    constructor
    · intro h
      exact mem_members_inj (contains_ofList.mp h) hmember
    · rintro rfl
      exact contains_ofList.mpr hmember
  rw [planted, List.countP_map]
  calc (List.range w.communities).countP
          ((fun group : Group => group.contains (identity community number)) ∘
            fun other => Group.ofList other (w.members other))
      = (List.range w.communities).count community :=
        List.countP_congr fun other _ => by rw [Function.comp_apply, hsame]
    _ = 1 := List.count_eq_one_of_mem List.nodup_range (List.mem_range.mpr hcommunity)

/-- The planted groups are numbered in turn and hold all the identities of their communities. No
two of them share a name, at any size, and every access of a stream is by a member of one. -/
theorem planted_partition (w : Workload) :
    (∀ groups, w.plant = .ok groups ↔ w.Settles ∧ groups = w.planted) ∧
    w.planted.map (·.id) = List.range w.communities ∧
    (∀ group ∈ w.planted, group.size = w.identities ∧ ∀ name, group.contains name = true ↔
      ∃ number < w.identities, name = identity group.id number) ∧
    w.planted.Pairwise (fun group other => ∀ name,
      group.contains name = true → other.contains name = false) ∧
    (∀ community number community' number',
      identity community number = identity community' number' →
        community = community' ∧ number = number') ∧
    ∀ s, ∀ event ∈ (w.events s).1, w.planted.countP (·.contains event.identity) = 1 := by
  refine ⟨fun _ => plant_eq_ok, ?_, ?_, ?_, fun _ _ _ _ => identity_inj, ?_⟩
  · rw [planted, List.map_map]
    exact List.map_id _
  · intro group hgroup
    obtain ⟨community, -, rfl⟩ := mem_planted.mp hgroup
    exact ⟨w.size_planted community, fun _ => contains_ofList.trans mem_members⟩
  · rw [planted, List.pairwise_map]
    refine List.nodup_range.imp fun hne name hmember => ?_
    by_contra hother
    rw [Bool.not_eq_false] at hother
    exact hne (mem_members_inj (contains_ofList.mp hmember) (contains_ofList.mp hother))
  · intro s event hevent
    obtain ⟨community, hcommunity, number, hnumber, hidentity, -⟩ := exists_slot hevent
    rw [hidentity]
    exact countP_planted hcommunity hnumber

end Workload

end Cohort
