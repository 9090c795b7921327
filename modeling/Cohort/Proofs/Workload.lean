import Cohort.Agreement
import Cohort.Proofs.Draw
import Cohort.Workload
import Mathlib.Algebra.Group.Nat.Even
import Mathlib.Data.List.Nodup
import Mathlib.Data.List.ProdSigma

/-! Streams without noise: names tell community and number, object numbers tell their pool, and
every event stays in the pool of its identity's community. -/

namespace Cohort

open Cohort.Random

theorem paddedDigits_inj {width n m : Nat} (h : paddedDigits 10 width n = paddedDigits 10 width m) :
    n = m := by
  have hvalue (k : Nat) : Nat.ofDigitChars 10 (paddedDigits 10 width k) 0 = k := by
    rw [paddedDigits, Nat.ofDigitChars_append, Nat.ofDigitChars_replicate_zero, Nat.mul_zero,
      Nat.ofDigitChars_ten_toDigits]
  rw [← hvalue n, h, hvalue]

theorem dash_not_mem_paddedDigits (width n : Nat) : '-' ∉ paddedDigits 10 width n := by
  intro hmem
  rcases List.mem_append.mp hmem with hzero | hdigit
  · exact absurd (List.eq_of_mem_replicate hzero) (by decide)
  · exact absurd (Nat.isDigit_of_mem_toDigits (by decide) (by decide) hdigit) (by decide)

namespace Workload

theorem identity_inj {community number community' number' : Nat}
    (h : identity community number = identity community' number') :
    community = community' ∧ number = number' := by
  have hchars : paddedDigits 10 3 community ++ '-' :: 'i' :: paddedDigits 10 3 number =
      paddedDigits 10 3 community' ++ '-' :: 'i' :: paddedDigits 10 3 number' :=
    (List.cons.inj (String.ofList_injective h)).2
  have hdash : '-' ∉ 'i' :: paddedDigits 10 3 number := by
    simp [dash_not_mem_paddedDigits]
  obtain ⟨hfirst, -, hrest⟩ :=
    (List.append_cons_inj_of_notMem (dash_not_mem_paddedDigits _ _) hdash).mp hchars
  exact ⟨paddedDigits_inj hfirst, paddedDigits_inj (List.cons.inj hrest).2⟩

theorem isAbsent_identity (community number : Nat) :
    Identity.isAbsent (identity community number) = false := by
  rw [Identity.isAbsent, beq_eq_false_iff_ne]
  intro h
  have hchars : identity community number = String.ofList [] := h
  exact List.cons_ne_nil _ _ (String.ofList_injective hchars)

variable {w : Workload}

theorem object_inj {community number community' number' : Nat} (h : number < w.objects)
    (h' : number' < w.objects)
    (hsame : w.object community number = w.object community' number') :
    community = community' ∧ number = number' := by
  have hsum : community * w.objects + number = community' * w.objects + number' :=
    Nat.add_left_cancel hsame
  have hcommunity := congrArg (· / w.objects) hsum
  have hnumber := congrArg (· % w.objects) hsum
  simpa [Nat.mul_comm _ w.objects, Nat.mul_add_div (Nat.zero_lt_of_lt h), Nat.div_eq_of_lt h,
    Nat.div_eq_of_lt h', Nat.mod_eq_of_lt h, Nat.mod_eq_of_lt h'] using
      And.intro hcommunity hnumber

theorem everyone_eq (w : Workload) :
    w.everyone = List.range w.communities ×ˢ List.range w.identities :=
  rfl

theorem mem_everyone {slot : Nat × Nat} :
    slot ∈ w.everyone ↔ slot.1 < w.communities ∧ slot.2 < w.identities := by
  rw [everyone_eq, List.mem_product, List.mem_range, List.mem_range]

theorem count_everyone (w : Workload) (slot : Nat × Nat) :
    w.everyone.count slot = if slot.1 < w.communities ∧ slot.2 < w.identities then 1 else 0 := by
  have hnodup : w.everyone.Nodup := List.Nodup.product List.nodup_range List.nodup_range
  rw [hnodup.count]
  simp only [mem_everyone]

theorem count_slots (w : Workload) (slot : Nat × Nat) : w.slots.count slot =
    if slot.1 < w.communities ∧ slot.2 < w.identities then w.accesses else 0 := by
  have hflatten (n : Nat) : (List.replicate n w.everyone).flatten.count slot =
      n * w.everyone.count slot := by
    induction n with
    | zero => simp
    | succ n ih =>
      rw [List.replicate_succ, List.flatten_cons, List.count_append, ih, Nat.succ_mul, Nat.add_comm]
  rw [slots_eq, hflatten, count_everyone]
  split <;> simp

theorem mem_slots {slot : Nat × Nat} (h : slot ∈ w.slots) :
    slot.1 < w.communities ∧ slot.2 < w.identities := by
  have hpositive := List.count_pos_iff.mpr h
  rw [count_slots] at hpositive
  by_contra hout
  rw [if_neg hout] at hpositive
  exact Nat.lt_irrefl 0 hpositive

def communityOf? (w : Workload) (name : Identity) : Option Nat :=
  (List.range w.communities).find? fun community => (w.members community).contains name

theorem mem_members {community : Nat} {name : Identity} :
    name ∈ w.members community ↔ ∃ number < w.identities, name = identity community number := by
  simp [members, List.mem_map, eq_comm]

theorem mem_members_inj {community community' : Nat} {name : Identity}
    (h : name ∈ w.members community) (h' : name ∈ w.members community') :
    community = community' := by
  obtain ⟨_, -, hname⟩ := mem_members.mp h
  obtain ⟨_, -, hname'⟩ := mem_members.mp h'
  exact (identity_inj (hname.symm.trans hname')).1

theorem nodup_members (w : Workload) (community : Nat) : (w.members community).Nodup :=
  List.nodup_range.map fun _ _ heq => (identity_inj heq).2

theorem communityOf?_eq_some {name : Identity} {community : Nat} :
    w.communityOf? name = some community ↔
      community < w.communities ∧ name ∈ w.members community := by
  constructor
  · intro h
    have hmem := List.find?_some h
    exact ⟨List.mem_range.mp (List.mem_of_find?_eq_some h), by simpa using hmem⟩
  · rintro ⟨hinside, hmem⟩
    cases h : w.communityOf? name with
    | none =>
      have hnone := List.find?_eq_none.mp h community (List.mem_range.mpr hinside)
      simp [hmem] at hnone
    | some found =>
      have hfound : name ∈ w.members found := by simpa using List.find?_some h
      rw [mem_members_inj hfound hmem]

theorem mem_planted {group : Group} : group ∈ w.planted ↔
    ∃ community < w.communities, Group.ofList community (w.members community) = group := by
  simp [planted, List.mem_map]

theorem mem_ofList {community : Nat} {names : List Identity} {name : Identity} :
    name ∈ (Group.ofList community names).members ↔ name ∈ names := by
  simp [Group.ofList]

theorem contains_ofList {community : Nat} {names : List Identity} {name : Identity} :
    (Group.ofList community names).contains name = true ↔ name ∈ names := by
  rw [Group.contains, ← Std.ExtTreeSet.mem_iff_contains, mem_ofList]

structure Settles (w : Workload) : Prop where
  groups : groupBytes * w.communities < roomBound
  members : 0 < w.communities → memberBytes * w.identities < roomBound

/-- There is room for a pool and for the events of a stream, and no number on the way to that of
the events is too large. -/
structure Fits (w : Workload) : Prop where
  pool : poolBytes * w.objects < roomBound
  identities : w.communities * w.identities < wordBound
  events : eventBytes * (w.communities * w.identities * w.accesses) < roomBound

theorem plant_eq_ok {groups : List Group} :
    w.plant = .ok groups ↔ w.Settles ∧ groups = w.planted := by
  by_cases hsome : 0 < w.communities
  · simp only [plant, if_pos hsome, bind_eq_ok, room_eq_ok, pure, Except.pure, Except.ok.injEq]
    constructor
    · rintro ⟨_, hgroups, _, hmembers, rfl⟩
      exact ⟨⟨hgroups, fun _ => hmembers⟩, rfl⟩
    · rintro ⟨⟨hgroups, hmembers⟩, rfl⟩
      exact ⟨(), hgroups, (), hmembers hsome, rfl⟩
  · simp only [plant, if_neg hsome, bind_eq_ok, room_eq_ok, pure, Except.pure, Except.ok.injEq]
    constructor
    · rintro ⟨_, hgroups, rfl⟩
      exact ⟨⟨hgroups, fun h => absurd h hsome⟩, rfl⟩
    · rintro ⟨⟨hgroups, -⟩, rfl⟩
      exact ⟨(), hgroups, rfl⟩

theorem stream_eq_ok {s : Source} {made : List Event × Source} :
    w.stream s = .ok made ↔ w.Fits ∧ made = w.events s := by
  simp only [stream, eventCount, identityCount, bind_eq_ok, room_eq_ok, inWord_eq_ok, pure,
    Except.pure, Except.ok.injEq]
  constructor
  · rintro ⟨_, hpool, _, ⟨_, ⟨hidentities, rfl⟩, -, rfl⟩, _, hevents, rfl⟩
    exact ⟨⟨hpool, hidentities, hevents⟩, rfl⟩
  · rintro ⟨⟨hpool, hidentities, hevents⟩, rfl⟩
    have hcount : w.communities * w.identities * w.accesses < wordBound := by
      unfold eventBytes roomBound at hevents
      unfold wordBound
      omega
    exact ⟨(), hpool, _, ⟨_, ⟨hidentities, rfl⟩, hcount, rfl⟩, (), hevents, rfl⟩

theorem nodup_planted (w : Workload) : (w.planted.flatMap (·.names)).Nodup := by
  rw [planted, List.flatMap_map, List.nodup_flatMap]
  constructor
  · intro community _
    exact nodup_toList _
  · refine List.nodup_range.imp fun {first second} hne name hfirst hsecond => hne ?_
    exact mem_members_inj (mem_ofList.mp (Group.mem_names.mp hfirst))
      (mem_ofList.mp (Group.mem_names.mp hsecond))

theorem size_planted (w : Workload) (community : Nat) :
    (Group.ofList community (w.members community)).size = w.identities := by
  have hdistinct : (w.members community).Pairwise fun x y => ¬ compare x y = .eq :=
    (w.nodup_members community).imp fun hne heq => hne (Std.compare_eq_iff_eq.mp heq)
  rw [Group.size, Group.ofList, Std.ExtTreeSet.size_ofList hdistinct, members, List.length_map,
    List.length_range]

theorem nodup_planted_members (w : Workload) (h : 0 < w.identities) :
    (w.planted.map (·.members)).Nodup := by
  rw [planted, List.map_map]
  refine List.Nodup.map ?_ List.nodup_range
  intro community community' heq
  have hmember : identity community 0 ∈ w.members community := mem_members.mpr ⟨0, h, rfl⟩
  have hsame : (Group.ofList community (w.members community)).members =
      (Group.ofList community' (w.members community')).members := heq
  have hother : identity community 0 ∈
      (Group.ofList community' (w.members community')).members := by
    rw [← hsame]
    exact mem_ofList.mpr hmember
  exact mem_members_inj hmember (mem_ofList.mp hother)

theorem pairs_planted (w : Workload) :
    2 * Agreement.pairs w.planted = w.communities * w.identities * (w.identities - 1) := by
  have hsizes : w.planted.map (fun group => pairCount group.size) =
      List.replicate w.communities (pairCount w.identities) := by
    rw [planted, List.map_map, List.eq_replicate_iff]
    refine ⟨by simp, fun n hmem => ?_⟩
    obtain ⟨community, -, rfl⟩ := List.mem_map.mp hmem
    rw [Function.comp_apply, size_planted]
  have heven := Nat.two_mul_div_two_of_even (Nat.even_mul_pred_self w.identities)
  rw [Agreement.pairs, hsizes, addUp_replicate, pairCount, Nat.mul_left_comm, heven, Nat.mul_assoc]

section Related

variable {R : Nat × Nat → Event → Prop}

theorem forall₂_eventsFor {slots : List (Nat × Nat)}
    (h : ∀ slot ∈ slots, ∀ s, R slot (w.event slot s).1) (made : Array Event) (s : Source) :
    ∃ events, List.Forall₂ R slots events ∧
      (w.eventsFor slots made s).1.toList = made.toList ++ events := by
  induction slots generalizing made s with
  | nil => exact ⟨[], .nil, (List.append_nil _).symm⟩
  | cons slot rest ih =>
    obtain ⟨hslot, hrest⟩ := List.forall_mem_cons.mp h
    obtain ⟨events, hevents, heq⟩ := ih hrest (made.push (w.event slot s).1) (w.event slot s).2
    refine ⟨(w.event slot s).1 :: events, .cons (hslot s) hevents, ?_⟩
    rw [Array.toList_push, List.append_assoc] at heq
    exact heq

theorem exists_events_perm (h : ∀ slot ∈ w.slots, ∀ s, R slot (w.event slot s).1) (s : Source) :
    ∃ events, List.Forall₂ R w.slots events ∧ (w.events s).1.Perm events := by
  obtain ⟨events, hevents, heq⟩ := forall₂_eventsFor h #[] s
  refine ⟨events, hevents, ?_⟩
  rw [← List.nil_append events, ← Array.toList_empty, ← heq]
  exact Array.perm_iff_toList_perm.mp (Source.shuffle_perm ..)

end Related

def Serves (w : Workload) (slot : Nat × Nat) (event : Event) : Prop :=
  event.identity = identity slot.1 slot.2 ∧
    ∃ numbers, Selected w.objects (min w.perAccess w.objects) numbers ∧
      event.objects = numbers.map (w.object slot.1)

section Quiet

variable (hquiet : (w.probability == 0.0) = true)

include hquiet

theorem serving_of_quiet (community : Nat) (s : Source) :
    (w.serving community s).1 = community := by
  unfold serving
  split
  next => simp [Source.chance_of_zero hquiet]
  next => rfl

theorem serve_of_quiet (community : Nat) (numbers : List Nat) (s : Source) :
    (w.serve community numbers s).1 = numbers.map (w.object community) := by
  induction numbers generalizing s with
  | nil => rfl
  | cons number rest ih =>
    rw [serve, List.map_cons, ← ih (w.serving community s).2]
    simp only [serving_of_quiet hquiet]

theorem serves_event (slot : Nat × Nat) (s : Source) : w.Serves slot (w.event slot s).1 :=
  ⟨rfl, _, s.selected_sample w.objects w.perAccess, serve_of_quiet hquiet ..⟩

theorem events_perm (s : Source) :
    ∃ events, List.Forall₂ w.Serves w.slots events ∧ (w.events s).1.Perm events :=
  exists_events_perm (fun slot _ => serves_event hquiet slot) s

end Quiet

end Workload

end Cohort
