import Cohort.Proofs.SlidingWindow
import Cohort.Proofs.Workload

/-! What a stream without noise uses. An identity uses objects of its community's pool only, and
where every event takes the whole pool, it uses each of them as often as it has events. -/

namespace Cohort

open Cohort.Random
open Tracker (Action uses)

section Related

variable {α β : Type} {R : α → β → Prop} {left : List α} {right : List β}

theorem countP_forall₂ (h : List.Forall₂ R left right) {p : α → Bool} {q : β → Bool}
    (hsame : ∀ a b, R a b → p a = q b) : left.countP p = right.countP q := by
  induction h with
  | nil => rfl
  | cons hhead _ ih => rw [List.countP_cons, List.countP_cons, hsame _ _ hhead, ih]

theorem exists_of_mem_forall₂ (h : List.Forall₂ R left right) {b : β} (hmem : b ∈ right) :
    ∃ a ∈ left, R a b := by
  induction h with
  | nil => cases hmem
  | cons hhead _ ih =>
    rcases List.mem_cons.mp hmem with rfl | hmem
    · exact ⟨_, List.mem_cons_self, hhead⟩
    · obtain ⟨a, ha, hrelated⟩ := ih hmem
      exact ⟨a, List.mem_cons_of_mem _ ha, hrelated⟩

end Related

def Event.action (event : Event) : Action :=
  .record event.identity event.objects

theorem Event.uses_perm {events others : List Event} (h : events.Perm others) (name : Identity)
    (object : ObjectId) :
    uses name object (events.map Event.action) = uses name object (others.map Event.action) :=
  (h.map Event.action).countP_eq _

namespace Workload

variable {w : Workload} {slot : Nat × Nat} {event : Event}

theorem Serves.mem_objects (h : w.Serves slot event) {object : ObjectId}
    (hobject : object ∈ event.objects) : ∃ place < w.objects, object = w.object slot.1 place := by
  obtain ⟨-, numbers, hselected, hobjects⟩ := h
  rw [hobjects] at hobject
  obtain ⟨place, hplace, rfl⟩ := List.mem_map.mp hobject
  exact ⟨place, hselected.below place hplace, rfl⟩

theorem Serves.object_mem (h : w.Serves slot event) (hwhole : w.objects ≤ w.perAccess)
    {place : Nat} (hplace : place < w.objects) : w.object slot.1 place ∈ event.objects := by
  obtain ⟨-, numbers, hselected, hobjects⟩ := h
  rw [Nat.min_eq_right hwhole] at hselected
  rw [hobjects]
  exact List.mem_map_of_mem (hselected.mem_iff.mpr hplace)

theorem accepted_identity {community number : Nat} {objects : List ObjectId}
    (h : ∀ object ∈ objects, 1 ≤ object) :
    Action.accepted (identity community number) objects = true := by
  have hobjects : objects.any ObjectId.isAbsent = false := by
    rw [List.any_eq_false]
    intro object hobject
    simpa [ObjectId.isAbsent] using Nat.ne_of_gt (h object hobject)
  rw [Action.accepted, hobjects, isAbsent_identity]
  rfl

theorem Serves.accepted (h : w.Serves slot event) :
    Action.accepted event.identity event.objects = true := by
  rw [h.1]
  apply accepted_identity
  intro object hobject
  obtain ⟨place, -, rfl⟩ := h.mem_objects hobject
  exact Nat.le_add_right 1 _

theorem Serves.isUse (h : w.Serves slot event) {name : Identity} {object : ObjectId} :
    Action.isUse name object event.action = true ↔
      name = identity slot.1 slot.2 ∧ object ∈ event.objects := by
  simp only [Event.action, Action.isUse, h.accepted, Bool.and_true, Bool.and_eq_true, beq_iff_eq,
    List.contains_iff_mem]
  rw [h.1, eq_comm]

section Quiet

variable (hquiet : (w.probability == 0.0) = true) (s : Source)

include hquiet

theorem accepted_of_quiet : ∀ event ∈ (w.events s).1,
    Action.accepted event.identity event.objects = true := by
  obtain ⟨events, hserves, hperm⟩ := events_perm hquiet s
  intro event hevent
  obtain ⟨slot, -, hslot⟩ := exists_of_mem_forall₂ hserves (hperm.mem_iff.mp hevent)
  exact hslot.accepted

theorem place_of_use {name : Identity} {object : ObjectId}
    (h : 0 < uses name object ((w.events s).1.map Event.action)) :
    ∃ community < w.communities, ∃ number < w.identities, ∃ place < w.objects,
      name = identity community number ∧ object = w.object community place := by
  obtain ⟨events, hserves, hperm⟩ := events_perm hquiet s
  rw [Event.uses_perm hperm, uses, List.countP_map, List.countP_pos_iff] at h
  obtain ⟨event, hevent, huse⟩ := h
  obtain ⟨slot, hmem, hslot⟩ := exists_of_mem_forall₂ hserves hevent
  obtain ⟨hname, hobject⟩ := hslot.isUse.mp huse
  obtain ⟨place, hplace, hobject⟩ := hslot.mem_objects hobject
  obtain ⟨hcommunity, hnumber⟩ := mem_slots hmem
  exact ⟨slot.1, hcommunity, slot.2, hnumber, place, hplace, hname, hobject⟩

theorem uses_of_whole (hwhole : w.objects ≤ w.perAccess) {community number place : Nat}
    (hcommunity : community < w.communities) (hnumber : number < w.identities)
    (hplace : place < w.objects) : uses (identity community number) (w.object community place)
      ((w.events s).1.map Event.action) = w.accesses := by
  obtain ⟨events, hserves, hperm⟩ := events_perm hquiet s
  have hslots : w.slots.countP (· == (community, number)) = w.accesses := by
    rw [← List.count_eq_countP, count_slots, if_pos ⟨hcommunity, hnumber⟩]
  rw [Event.uses_perm hperm, uses, List.countP_map, ← hslots]
  refine (countP_forall₂ hserves ?_).symm
  intro slot event hslot
  rw [Bool.eq_iff_iff, Function.comp_apply, hslot.isUse, beq_iff_eq]
  constructor
  · rintro rfl
    exact ⟨rfl, hslot.object_mem hwhole hplace⟩
  · rintro ⟨hname, -⟩
    obtain ⟨rfl, rfl⟩ := identity_inj hname
    rfl

end Quiet

end Workload

end Cohort
