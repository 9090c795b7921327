import Cohort.Proofs.Modularity
import Cohort.Proofs.Sum
import Mathlib.Algebra.BigOperators.Field
import Mathlib.Algebra.Order.BigOperators.Ring.Finset
import Mathlib.Data.Rat.Cast.Order
import Mathlib.Tactic.Linarith

/-! How far modularity can go, reckoned in fractions. A group with a share `a` of the weight at all
vertices has a share of at least `2a - 1` inside, and at most `a`. So the score of groups, whatever
they have in common, is not below minus a half and does not reach one. -/

namespace Cohort

section Shares

/-! Shares of a whole: what each of some groups has inside, and what it has in all. -/

variable {ι : Type} {s : Finset ι} {inner total : ι → ℚ}

def scoreSum (s : Finset ι) (inner total : ι → ℚ) : ℚ :=
  ∑ group ∈ s, (inner group - total group ^ 2)

/-- Groups with at most half of the whole lose at most half of what they have. -/
theorem scoreSum_of_small (hinner : ∀ group ∈ s, 0 ≤ inner group)
    (htotal : ∀ group ∈ s, 0 ≤ total group) (hsmall : ∀ group ∈ s, total group ≤ 1 / 2) :
    -(∑ group ∈ s, total group) / 2 ≤ scoreSum s inner total := by
  rw [neg_div, Finset.sum_div, ← Finset.sum_neg_distrib, scoreSum]
  refine Finset.sum_le_sum fun group hmem => ?_
  have hsquare : total group ^ 2 ≤ 1 / 2 * total group := by
    rw [pow_two]
    exact mul_le_mul_of_nonneg_right (hsmall group hmem) (htotal group hmem)
  linarith [hinner group hmem]

/-- A group with more than half loses at most half of what it lacks to the whole. -/
theorem score_of_large {inner total : ℚ} (hlarge : 1 / 2 < total) (hless : total ≤ 1)
    (hmore : 2 * total - 1 ≤ inner) : -(1 - total) / 2 ≤ inner - total ^ 2 := by
  -- the lack is less than a half, and so its square is at most half of it
  have hsquare : (1 - total) ^ 2 ≤ 1 / 2 * (1 - total) := by
    rw [pow_two]
    exact mul_le_mul_of_nonneg_right (by linarith) (by linarith)
  have hexpand : (1 - total) ^ 2 = 1 - 2 * total + total ^ 2 := by ring
  linarith

/-- At most one group has more than half, and the others share what it lacks to the whole. -/
theorem neg_half_le_scoreSum (hinner : ∀ group ∈ s, 0 ≤ inner group)
    (htotal : ∀ group ∈ s, 0 ≤ total group)
    (hmore : ∀ group ∈ s, 2 * total group - 1 ≤ inner group)
    (hwhole : ∑ group ∈ s, total group ≤ 1) : -1 / 2 ≤ scoreSum s inner total := by
  classical
  by_cases hlarge : ∃ group ∈ s, 1 / 2 < total group
  · obtain ⟨large, hmem, hlarge⟩ := hlarge
    have hsplit := Finset.add_sum_erase s total hmem
    have hrest : ∀ group ∈ s.erase large, total group ≤ 1 / 2 := by
      intro group hgroup
      have hle := Finset.single_le_sum
        (fun other hother => htotal other (Finset.mem_of_mem_erase hother)) hgroup
      linarith
    have hothers := scoreSum_of_small
      (fun group hgroup => hinner group (Finset.mem_of_mem_erase hgroup))
      (fun group hgroup => htotal group (Finset.mem_of_mem_erase hgroup)) hrest
    have hown := score_of_large hlarge ((Finset.single_le_sum htotal hmem).trans hwhole)
      (hmore large hmem)
    rw [scoreSum, ← Finset.add_sum_erase s _ hmem]
    rw [scoreSum] at hothers
    linarith
  · have hsmall : ∀ group ∈ s, total group ≤ 1 / 2 :=
      fun group hmem => not_lt.mp fun hless => hlarge ⟨group, hmem, hless⟩
    linarith [scoreSum_of_small hinner htotal hsmall]

theorem scoreSum_lt_one (htotal : ∀ group ∈ s, 0 ≤ total group)
    (hless : ∀ group ∈ s, inner group ≤ total group)
    (hwhole : ∑ group ∈ s, total group ≤ 1) : scoreSum s inner total < 1 := by
  by_cases hzero : ∀ group ∈ s, total group = 0
  · have hnone : scoreSum s inner total ≤ 0 := by
      refine Finset.sum_nonpos fun group hmem => ?_
      have hinner := hless group hmem
      rw [hzero group hmem] at hinner ⊢
      linarith
    linarith
  · obtain ⟨holder, hmem, hholds⟩ : ∃ group ∈ s, total group ≠ 0 := by
      simpa only [not_forall, exists_prop] using hzero
    have hsquares : 0 < ∑ group ∈ s, total group ^ 2 := by
      have hsquare : 0 < total holder ^ 2 :=
        pow_pos (lt_of_le_of_ne (htotal holder hmem) hholds.symm) 2
      exact hsquare.trans_le (Finset.single_le_sum (fun group _ => sq_nonneg (total group)) hmem)
    have hinner : ∑ group ∈ s, inner group ≤ ∑ group ∈ s, total group := Finset.sum_le_sum hless
    rw [scoreSum, Finset.sum_sub_distrib]
    linarith

end Shares

namespace SharingGraph

variable {g : SharingGraph} {groups : List Group}

/-- Modularity in fractions: of the weight of all edges, counted from both ends, what each group has
inside less the square of what it has around it. -/
def score (g : SharingGraph) (internal incident : Array Weight) : ℚ :=
  ((internal.toList.zip incident.toList).map fun (inner, total) =>
    (inner : ℚ) / (2 * g.totalWeight) - ((total : ℚ) / (2 * g.totalWeight)) ^ 2).sum

theorem score_eq (g : SharingGraph) (groups : List Group) :
    g.score ((Array.range groups.length).map (g.inside groups))
        ((Array.range groups.length).map (g.around groups)) =
      scoreSum (Finset.range groups.length)
        (fun group => (g.inside groups group : ℚ) / (2 * g.totalWeight))
        fun group => (g.around groups group : ℚ) / (2 * g.totalWeight) := by
  rw [score, Array.toList_map, Array.toList_map, Array.toList_range, List.zip_map', List.map_map]
  rfl

structure Weighed (g : SharingGraph) (groups : List Group) (internal incident : Array Weight) :
    Prop where
  internal_eq : internal = (Array.range groups.length).map (g.inside groups)
  incident_eq : incident = (Array.range groups.length).map (g.around groups)
  within : ∀ group, g.inside groups group ≤ g.around groups group
  total : addUp incident.toList ≤ 2 * g.totalWeight
  whole : addUp incident.toList = 2 * g.totalWeight ↔ g.Covered groups
  lower : -1 / 2 ≤ g.score internal incident
  upper : g.score internal incident < 1
  single : groups.length = 1 → g.Covered groups → g.score internal incident = 0

section Bounds

variable (simple : g.Simple) (hweight : 0 < g.totalWeight)

include simple hweight

theorem sum_around_le (groups : List Group) : ∑ group ∈ Finset.range groups.length,
    (g.around groups group : ℚ) / (2 * g.totalWeight) ≤ 1 := by
  have hdoubled : (0 : ℚ) < 2 * g.totalWeight := by exact_mod_cast Nat.mul_pos two_pos hweight
  have htotal := addUp_around_le simple groups
  have hplaces : (List.range groups.length).toFinset = Finset.range groups.length := by
    ext place
    rw [List.mem_toFinset, List.mem_range, Finset.mem_range]
  rw [addUp_map_eq_sum List.nodup_range, hplaces] at htotal
  rw [← Finset.sum_div, div_le_one₀ hdoubled]
  exact_mod_cast htotal

theorem lower_score (groups : List Group) :
    -1 / 2 ≤ g.score ((Array.range groups.length).map (g.inside groups))
      ((Array.range groups.length).map (g.around groups)) := by
  have hdoubled : (0 : ℚ) < 2 * g.totalWeight := by exact_mod_cast Nat.mul_pos two_pos hweight
  rw [score_eq]
  refine neg_half_le_scoreSum (fun _ _ => div_nonneg (Nat.cast_nonneg _) hdoubled.le)
    (fun _ _ => div_nonneg (Nat.cast_nonneg _) hdoubled.le) (fun group _ => ?_)
    (sum_around_le simple hweight groups)
  have hmore : (2 : ℚ) * g.around groups group ≤ g.inside groups group + 2 * g.totalWeight := by
    exact_mod_cast two_around_le simple groups group
  rw [sub_le_iff_le_add, ← mul_div_assoc, div_add_one hdoubled.ne']
  exact div_le_div_of_nonneg_right hmore hdoubled.le

theorem upper_score (groups : List Group) :
    g.score ((Array.range groups.length).map (g.inside groups))
      ((Array.range groups.length).map (g.around groups)) < 1 := by
  have hdoubled : (0 : ℚ) < 2 * g.totalWeight := by exact_mod_cast Nat.mul_pos two_pos hweight
  rw [score_eq]
  refine scoreSum_lt_one (fun _ _ => div_nonneg (Nat.cast_nonneg _) hdoubled.le)
    (fun group _ => ?_) (sum_around_le simple hweight groups)
  have hless : (g.inside groups group : ℚ) ≤ g.around groups group := by
    exact_mod_cast inside_le_around simple groups group
  exact div_le_div_of_nonneg_right hless hdoubled.le

theorem score_single {group : Group} (hall : g.around [group] 0 = 2 * g.totalWeight) :
    g.score ((Array.range [group].length).map (g.inside [group]))
      ((Array.range [group].length).map (g.around [group])) = 0 := by
  have hinside : g.inside [group] 0 = 2 * g.totalWeight := by
    have hmore := two_around_le simple [group] 0
    rw [hall, Nat.two_mul] at hmore
    exact Nat.le_antisymm (hall ▸ inside_le_around simple [group] 0)
      (Nat.le_of_add_le_add_right hmore)
  have hdoubled : (2 : ℚ) * g.totalWeight ≠ 0 := by
    exact_mod_cast (Nat.mul_pos two_pos hweight).ne'
  rw [score_eq, scoreSum, List.length_singleton, Finset.sum_range_one, hall, hinside]
  push_cast
  rw [div_self hdoubled, one_pow, sub_self]

end Bounds

end SharingGraph

open SharingGraph

/-- The sums over the groups count every edge as they should, and keep the score, reckoned in
fractions, at least at minus a half and below one. -/
theorem modularity_bounded {g : SharingGraph} (built : g.Built) (hweight : 0 < g.totalWeight)
    (hfits : 2 * g.totalWeight < wordBound) (groups : List Group) :
    (∀ position group, g.groupAt groups position = some group ↔
      ∃ name, g.vertices[position]? = some name ∧ LastIn groups name group) ∧
    (∀ position group, (position, group) ∈ g.memberships groups ↔
      g.groupAt groups position = some group) ∧
    ((g.memberships groups).map (·.1)).Nodup ∧
    ∃ internal incident, g.internalSums groups = .ok internal ∧
      g.incidentSums groups = .ok incident ∧
      (∀ walk, walk.Perm (g.memberships groups) →
        g.incidentAlong groups.length walk = .ok incident) ∧
      g.modularity groups = .ok ((internal.toList.zip incident.toList).foldl
        (fun sum (inner, total) => sum + scoreOf (2.0 * toFloat g.totalWeight) inner total)
        (-0.0)) ∧
      g.Weighed groups internal incident := by
  have simple := built.simple
  have hinternal := internalSums_eq simple hfits groups
  have halong := fun walk => @incidentAlong_eq g groups simple hfits walk
  have hincident := (g.incidentSums_eq groups).trans (halong _ (.refl _))
  have hlist : ((Array.range groups.length).map (g.around groups)).toList =
      (List.range groups.length).map (g.around groups) := by
    rw [Array.toList_map, Array.toList_range]
  refine ⟨fun _ _ => groupAt_eq_some, fun _ _ => mem_memberships, nodup_memberships g groups,
    _, _, hinternal, hincident, halong, ?_, ?_⟩
  · rw [modularity, if_neg hweight.ne', hinternal, hincident]
    rfl
  · exact {
      internal_eq := rfl
      incident_eq := rfl
      within := inside_le_around simple groups
      total := hlist ▸ addUp_around_le simple groups
      whole := by
        rw [hlist, ← built.outside_eq_zero, ← addUp_around_add simple groups]
        exact Nat.left_eq_add
      lower := lower_score simple hweight groups
      upper := upper_score simple hweight groups
      single := by
        intro hone hcovered
        obtain ⟨group, rfl⟩ := List.length_eq_one_iff.mp hone
        rw [← built.outside_eq_zero] at hcovered
        have hall := addUp_around_add simple [group]
        rw [hcovered] at hall
        exact score_single simple hweight hall }

theorem modularity_bounded_overlap :
    let g : SharingGraph := { vertices := #["a", "b", "c"], links := [⟨0, 1, 2⟩, ⟨1, 2, 1⟩] }
    let groups : List Group := [.ofList 5 ["a", "b"], .ofList 5 ["b", "c", "z"], .ofList 7 []]
    g.internalSums groups = .ok #[0, 2, 0] ∧ g.incidentSums groups = .ok #[2, 4, 0] ∧
      g.incidentAlong 3 [(2, 1), (0, 0), (1, 1)] = .ok #[2, 4, 0] ∧
      g.Weighed groups #[0, 2, 0] #[2, 4, 0] ∧ g.score #[0, 2, 0] #[2, 4, 0] = -2 / 9 := by
  intro g groups
  have hbuilt : g.Built := ⟨_, .link (.link .empty "a" "b" 2) "b" "c" 1, rfl⟩
  obtain ⟨-, -, -, internal, incident, hinternal, hincident, halong, -, hweighed⟩ :=
    modularity_bounded hbuilt (by decide) (by decide) groups
  obtain rfl : internal = #[0, 2, 0] := hweighed.internal_eq.trans (by decide +kernel)
  obtain rfl : incident = #[2, 4, 0] := hweighed.incident_eq.trans (by decide +kernel)
  refine ⟨hinternal, hincident, halong _ (by decide +kernel), hweighed, ?_⟩
  decide +kernel

end Cohort
