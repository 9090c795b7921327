import Cohort.Proofs.Images
import Cohort.Proofs.Projection.Walk

/-! Graphs whose weights are multiples. Every access counts one, so when all accesses are made `k`
times as often, the weights are `k` times as large. So is then what two identities use in common,
and the weight of every edge of the projection. -/

namespace Cohort

namespace AccessGraph

variable {g h : AccessGraph} {k : Nat}

section Increments

theorem Linked.edgeWeight_eq_use (linked : g.Linked) (name : Identity) (object : ObjectId) :
    g.edgeWeight name object =
      if g.use name object = 0 then none else some (g.use name object) := by
  cases hweight : g.edgeWeight name object with
  | none => simp [use, hweight]
  | some weight =>
    have hpositive := linked.use_pos.mpr ⟨weight, hweight⟩
    rw [use_of_edgeWeight hweight] at hpositive ⊢
    rw [if_neg (Nat.ne_of_gt hpositive)]

theorem Sound.use_eq_weightOf (sound : g.Sound) (name : Identity) (object : ObjectId) :
    g.use name object = (g.weightOf (g.increment name object).1).getD 0 := by
  rw [use]
  cases hedge : g.edgeWeight name object with
  | some weight =>
    obtain ⟨key, hkey, hold⟩ := sound.edgeWeight_eq_some.mp hedge
    rw [sound.increment_fst name object hkey, hold]
  | none =>
    have hnone := (sound.ends?_increment_fst name object).resolve_left
      (sound.edgeWeight_eq_none.mp hedge _)
    rw [sound.ends?_eq_none.mp hnone]

theorem Sound.edgeWeight_increment_of_ne (sound : g.Sound) {name other : Identity}
    {object wanted : ObjectId} (hother : (name, object) ≠ (other, wanted)) :
    (g.increment name object).2.edgeWeight other wanted = g.edgeWeight other wanted := by
  have hends (key : EdgeKey) : (g.increment name object).2.ends? key = some (other, wanted) ↔
      g.ends? key = some (other, wanted) ∧ key ≠ (g.increment name object).1 := by
    rw [sound.ends?_increment]
    split
    next hkey => simp [hkey, hother]
    next hkey => simp [hkey]
  have hkey {key : EdgeKey} (h : g.ends? key = some (other, wanted)) :
      key ≠ (g.increment name object).1 := by
    have hfirst := sound.ends?_increment_fst name object
    rintro rfl
    rw [h] at hfirst
    simp [Ne.symm hother] at hfirst
  ext weight
  rw [(sound.increment name object).edgeWeight_eq_some, sound.edgeWeight_eq_some]
  refine exists_congr fun key => ?_
  rw [hends, sound.weightOf_increment]
  constructor
  · rintro ⟨⟨hpair, hne⟩, hvalue⟩
    exact ⟨hpair, by rwa [if_neg hne] at hvalue⟩
  · rintro ⟨hpair, hvalue⟩
    exact ⟨⟨hpair, hkey hpair⟩, by rwa [if_neg (hkey hpair)]⟩

theorem Sound.use_increment (sound : g.Sound) (name other : Identity) (object wanted : ObjectId) :
    (g.increment name object).2.use other wanted =
      g.use other wanted + if (name, object) = (other, wanted) then 1 else 0 := by
  split
  next hsame =>
    cases hsame
    have hends : (g.increment name object).2.ends? (g.increment name object).1 =
        some (name, object) := (sound.ends?_increment name object _).trans (if_pos rfl)
    rw [sound.use_eq_weightOf]
    exact use_of_edgeWeight ((sound.increment name object).edgeWeight_eq_some.mpr
      ⟨_, hends, (sound.weightOf_increment name object _).trans (if_pos rfl)⟩)
  next hother =>
    rw [use, sound.edgeWeight_increment_of_ne hother, use, Nat.add_zero]

def increments (accesses : List (Identity × ObjectId)) : List Change :=
  accesses.map fun (name, object) => .increment name object

theorem use_increments (accesses : List (Identity × ObjectId)) (name : Identity)
    (object : ObjectId) :
    (after (increments accesses)).use name object = accesses.count (name, object) := by
  induction accesses using List.reverseRecOn with
  | nil => rfl
  | append_singleton accesses access ih =>
    have hlast : increments (accesses ++ [access]) =
        increments accesses ++ [.increment access.1 access.2] := by simp [increments]
    rw [hlast, after_concat, change, (sound_after _).use_increment, ih, List.count_append,
      List.count_singleton]
    simp

end Increments

/-- Whether a graph has the edges of another one, each with a multiple of its weight. -/
def Scaled (g : AccessGraph) (k : Nat) (h : AccessGraph) : Prop :=
  ∀ name object, h.edgeWeight name object = (g.edgeWeight name object).map (k * ·)

theorem scaled_increments (hk : 0 < k) {accesses others : List (Identity × ObjectId)}
    (h : ∀ access, others.count access = k * accesses.count access) :
    (after (increments accesses)).Scaled k (after (increments others)) := by
  intro name object
  rw [(sound_after _).edgeWeight_eq_use, (sound_after _).edgeWeight_eq_use, use_increments,
    use_increments, h]
  by_cases hzero : accesses.count (name, object) = 0
  · simp [hzero]
  · rw [if_neg hzero, if_neg (Nat.mul_ne_zero hk.ne' hzero), Option.map_some]

namespace Scaled

variable (scaled : g.Scaled k h)

include scaled

theorem sameEdges : g.SameEdges h := by
  intro name object
  rw [scaled, Option.isSome_map]

theorem use (name : Identity) (object : ObjectId) : h.use name object = k * g.use name object := by
  rw [AccessGraph.use, scaled, AccessGraph.use]
  cases g.edgeWeight name object <;> simp

variable (sound : g.Sound) (sound' : h.Sound)

include sound sound'

theorem common (first second : Identity) : h.common first second = k * g.common first second := by
  simp only [AccessGraph.common, ← scaled.sameEdges.objects sound sound', scaled.use,
    Nat.mul_min_mul_left, addUp_map_mul]

theorem totalCommon : h.totalCommon = k * g.totalCommon := by
  rw [AccessGraph.totalCommon, AccessGraph.totalCommon, ← addUp_map_mul,
    scaled.sameEdges.identities sound sound']
  simp only [scaled.common sound sound', mul_ite, Nat.mul_zero]

theorem projects (hk : 0 < k) {shared : SharingGraph} (law : g.Projects shared) :
    h.Projects (shared.scale k) where
  ascending := law.ascending
  mem_vertices name := by
    rw [← scaled.sameEdges.contains sound sound']
    exact law.mem_vertices name
  links_ascending := List.pairwise_map.mpr law.links_ascending
  mem_links link := by
    have hshares (first second : Identity) : h.Shares first second ↔ g.Shares first second := by
      rw [sound'.shares_iff, sound.shares_iff, scaled.common sound sound',
        Nat.mul_pos_iff_of_pos_left hk]
    simp only [scaled.common sound sound', hshares]
    constructor
    · intro hmem
      obtain ⟨own, hown, rfl⟩ := List.mem_map.mp hmem
      obtain ⟨first, second, hleft, hright, hlt, hcommon, hweight⟩ := (law.mem_links own).mp hown
      exact ⟨first, second, hleft, hright, hlt, hcommon, congrArg (k * ·) hweight⟩
    · rintro ⟨first, second, hleft, hright, hlt, hcommon, hweight⟩
      have hown := (law.mem_links ⟨link.left, link.right, g.common first second⟩).mpr
        ⟨first, second, hleft, hright, hlt, hcommon, rfl⟩
      obtain ⟨left, right, weight⟩ := link
      obtain rfl : weight = k * g.common first second := hweight
      exact List.mem_map_of_mem hown

/-- The walk over the one graph succeeds when that over the other does and the multiple of its total
weight fits in a word, and it makes the same graph with all weights multiplied. -/
theorem fold_eq_ok (hk : 0 < k) (orders : Orders g) (orders' : Orders h) {target : SharingGraph} :
    h.fold orders' = .ok target ↔ ∃ shared, g.fold orders = .ok shared ∧
      k * shared.totalWeight < wordBound ∧ target = shared.scale k := by
  constructor
  · intro hfold
    obtain ⟨hfits, hprojects⟩ := (sound'.fold_eq_ok orders').mp hfold
    rw [scaled.totalCommon sound sound'] at hfits
    have hsmall := Nat.lt_of_le_of_lt (Nat.le_mul_of_pos_left g.totalCommon hk) hfits
    have hfold := (sound.fold_eq orders).trans (if_pos hsmall)
    have hlaw := ((sound.fold_eq_ok orders).mp hfold).2
    refine ⟨_, hfold, ?_, hprojects.unique (scaled.projects sound sound' hk hlaw)⟩
    rwa [sound.totalWeight_of_fold orders hfold]
  · rintro ⟨shared, hfold, hfits, rfl⟩
    rw [sound.totalWeight_of_fold orders hfold, ← scaled.totalCommon sound sound'] at hfits
    have hlaw := ((sound.fold_eq_ok orders).mp hfold).2
    exact (sound'.fold_eq_ok orders').mpr ⟨hfits, scaled.projects sound sound' hk hlaw⟩

end Scaled

end AccessGraph

end Cohort
