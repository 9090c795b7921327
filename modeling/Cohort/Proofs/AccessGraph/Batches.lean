import Cohort.Tracker
import Cohort.Proofs.AccessGraph.Weights
import Cohort.Proofs.Window

/-! Whole lists of accesses and of expired amounts. Under every key an access adds as often as the
key was given out, and an expiry subtracts what the list holds for the key. -/

namespace Cohort.AccessGraph

variable {g : AccessGraph}

def weightAt (g : AccessGraph) (key : EdgeKey) : Nat :=
  (g.weightOf key).getD 0

theorem Linked.weightOf_eq (linked : g.Linked) (key : EdgeKey) :
    g.weightOf key = if g.weightAt key = 0 then none else some (g.weightAt key) := by
  unfold weightAt
  cases h : g.weightOf key with
  | none => rfl
  | some weight =>
    obtain ⟨edge, hedge, rfl⟩ := weightOf_eq_some.mp h
    have hpositive := linked.positive hedge
    simp [Nat.ne_of_gt hpositive]

theorem Linked.weightAt_pos (linked : g.Linked) {key : EdgeKey} :
    0 < g.weightAt key ↔ ∃ pair, g.ends? key = some pair := by
  rw [← Option.ne_none_iff_exists', ne_eq, linked.ends?_eq_none, linked.weightOf_eq]
  split <;> simp <;> omega

theorem Linked.edgeWeight_eq (linked : g.Linked) {name : Identity} {object : ObjectId}
    {key : EdgeKey} (h : g.ends? key = some (name, object)) :
    g.edgeWeight name object = some (g.weightAt key) := by
  obtain ⟨weight, hweight, -⟩ := linked.weight_of_ends? h
  rw [linked.edgeWeight_eq_some.mpr ⟨key, h, hweight⟩, weightAt, hweight, Option.getD_some]

section Touch

theorem touch_cons (name : Identity) (object : ObjectId) (rest : List ObjectId) :
    g.touch name (object :: rest) =
      ((g.increment name object).1 :: ((g.increment name object).2.touch name rest).1,
        ((g.increment name object).2.touch name rest).2) :=
  rfl

theorem Linked.weightAt_increment (linked : g.Linked) (name : Identity) (object : ObjectId)
    (key : EdgeKey) : (g.increment name object).2.weightAt key =
      g.weightAt key + if key = (g.increment name object).1 then 1 else 0 := by
  unfold weightAt
  rw [linked.weightOf_increment]
  split <;> rfl

theorem Sound.touch (sound : g.Sound) (name : Identity) (objects : List ObjectId) :
    (g.touch name objects).2.Sound := by
  induction objects generalizing g with
  | nil => exact sound
  | cons object rest ih =>
    rw [touch_cons]
    exact ih (sound.increment name object)

theorem Sound.ends?_touch (sound : g.Sound) (name : Identity) (objects : List ObjectId)
    {key : EdgeKey} {pair : Identity × ObjectId} (h : g.ends? key = some pair) :
    (g.touch name objects).2.ends? key = some pair := by
  induction objects generalizing g with
  | nil => exact h
  | cons object rest ih =>
    rw [touch_cons]
    exact ih (sound.increment name object) (sound.ends?_increment_of_some name object h)

theorem Sound.weightAt_touch (sound : g.Sound) (name : Identity) (objects : List ObjectId)
    (key : EdgeKey) : (g.touch name objects).2.weightAt key =
      g.weightAt key + (g.touch name objects).1.count key := by
  induction objects generalizing g with
  | nil => rfl
  | cons object rest ih =>
    rw [touch_cons, ih (sound.increment name object), sound.weightAt_increment, List.count_cons,
      Nat.add_assoc, Nat.add_comm (List.count ..)]
    simp only [beq_iff_eq, @eq_comm _ key]

theorem Sound.ends?_touch_fst (sound : g.Sound) (name : Identity) (objects : List ObjectId) :
    (g.touch name objects).1.map (g.touch name objects).2.ends? =
      objects.map fun object => some (name, object) := by
  induction objects generalizing g with
  | nil => rfl
  | cons object rest ih =>
    have hsound := sound.increment name object
    have hfirst : (g.increment name object).2.ends? (g.increment name object).1 =
        some (name, object) := by
      rw [sound.ends?_increment, if_pos rfl]
    rw [touch_cons, List.map_cons, List.map_cons, ih hsound, hsound.ends?_touch name rest hfirst]

theorem Sound.count_touch_fst (sound : g.Sound) {name : Identity} {objects : List ObjectId}
    (hnodup : objects.Nodup) {key : EdgeKey} {other : Identity} {object : ObjectId}
    (h : (g.touch name objects).2.ends? key = some (other, object)) :
    (g.touch name objects).1.count key = if name = other ∧ object ∈ objects then 1 else 0 := by
  have hlinked := (sound.touch name objects).toLinked
  have hkey : ∀ k, (k == key) = ((g.touch name objects).2.ends? k == some (other, object)) := by
    intro k
    rw [Bool.eq_iff_iff, beq_iff_eq, beq_iff_eq]
    exact ⟨fun heq => heq ▸ h, fun hk => hlinked.ends?_unique hk h⟩
  calc (g.touch name objects).1.count key
    _ = ((g.touch name objects).1.map (g.touch name objects).2.ends?).count
          (some (other, object)) := by
        rw [List.count, List.count, List.countP_map]
        exact List.countP_congr fun k _ => by simp [hkey k]
    _ = objects.countP fun o => some (name, o) == some (other, object) := by
        rw [sound.ends?_touch_fst, List.count, List.countP_map]
        rfl
    _ = if name = other ∧ object ∈ objects then 1 else 0 := by
        by_cases hname : name = other
        · subst hname
          have hobject : ∀ o, (some (name, o) == some (name, object)) = (o == object) := by
            intro o
            rw [Bool.eq_iff_iff]
            simp
          simp only [hobject, true_and]
          exact hnodup.count
        · simp [hname]

theorem Sound.exists_touch_fst (sound : g.Sound) (name : Identity) {objects : List ObjectId}
    {object : ObjectId} (h : object ∈ objects) :
    ∃ key, (g.touch name objects).2.ends? key = some (name, object) := by
  have hmem : some (name, object) ∈ objects.map fun o => some (name, o) :=
    List.mem_map_of_mem h
  rw [← sound.ends?_touch_fst] at hmem
  obtain ⟨key, -, hends⟩ := List.mem_map.mp hmem
  exact ⟨key, hends⟩

end Touch

section Expire

theorem expire_snd (g : AccessGraph) (expired : List (EdgeKey × Nat)) :
    (g.expire expired).2 = expired.foldl (fun g entry => (g.decay entry.1 entry.2).2) g := by
  have loop (decayed : Decayed) : (expired.foldl (fun state entry =>
      (state.1.note (state.2.decay entry.1 entry.2).1, (state.2.decay entry.1 entry.2).2))
        (decayed, g)).2 = expired.foldl (fun g entry => (g.decay entry.1 entry.2).2) g := by
    induction expired generalizing g decayed with
    | nil => rfl
    | cons entry rest ih => exact ih _ _
  exact loop .zero

theorem expire_cons (g : AccessGraph) (entry : EdgeKey × Nat) (rest : List (EdgeKey × Nat)) :
    (g.expire (entry :: rest)).2 = ((g.decay entry.1 entry.2).2.expire rest).2 := by
  rw [expire_snd, expire_snd, List.foldl_cons]

theorem weightAt_decay (key : EdgeKey) (amount : Nat) (other : EdgeKey) :
    (g.decay key amount).2.weightAt other =
      g.weightAt other - if key = other then amount else 0 := by
  unfold weightAt
  rw [weightOf_decay]
  by_cases h : other = key
  · subst h
    cases g.weightOf other with
    | none => simp
    | some weight =>
      by_cases hless : amount < weight
      · simp [hless]
      · simp [hless, Nat.sub_eq_zero_of_le (Nat.le_of_not_lt hless)]
  · simp [h, Ne.symm h]

theorem Linked.decay_missing_iff (linked : g.Linked) (key : EdgeKey) (amount : Nat) :
    (g.decay key amount).1 = .missing ↔ g.weightAt key = 0 := by
  have hweight := linked.weightOf_eq key
  rcases @decay_cases g key amount with ⟨hnone, heq⟩ | ⟨weight, hsome, -, heq⟩ |
    ⟨edge, endpoints, hget, -, heq⟩
  · simp [heq, weightAt, hnone]
  · simp only [heq, reduceCtorEq, false_iff]
    intro hzero
    simp [hzero, hsome] at hweight
  · simp only [heq, reduceCtorEq, false_iff]
    intro hzero
    rw [if_pos hzero, weightOf_eq_none, hget] at hweight
    cases hweight

theorem weightAt_of_removed {key : EdgeKey} {amount endpoints : Nat}
    (h : (g.decay key amount).1 = .removed endpoints) : g.weightAt key ≤ amount := by
  rcases @decay_cases g key amount with ⟨-, heq⟩ | ⟨weight, -, -, heq⟩ |
    ⟨edge, endpoints, hget, hle, heq⟩
  · simp [heq] at h
  · simp [heq] at h
  · simpa [weightAt, weightOf, hget] using hle

theorem Sound.expire (sound : g.Sound) (expired : List (EdgeKey × Nat)) :
    (g.expire expired).2.Sound := by
  induction expired generalizing g with
  | nil => exact sound
  | cons entry rest ih =>
    rw [expire_cons]
    exact ih (sound.decay _ _)

theorem weightAt_expire (expired : List (EdgeKey × Nat)) (key : EdgeKey) :
    (g.expire expired).2.weightAt key = g.weightAt key - Tally.share key expired := by
  induction expired generalizing g with
  | nil => rfl
  | cons entry rest ih =>
    rw [expire_cons, ih, weightAt_decay, Tally.share_cons]
    simp only [Std.compare_eq_iff_eq]
    omega

theorem Sound.ends?_expire (sound : g.Sound) (expired : List (EdgeKey × Nat)) (key : EdgeKey) :
    (g.expire expired).2.ends? key =
      if (g.expire expired).2.weightAt key = 0 then none else g.ends? key := by
  split
  next hgone =>
    have hsound := sound.expire expired
    rw [hsound.ends?_eq_none, hsound.weightOf_eq, if_pos hgone]
  next hlive =>
    induction expired generalizing g with
    | nil => rfl
    | cons entry rest ih =>
      have hsound := sound.decay entry.1 entry.2
      rw [expire_cons] at hlive ⊢
      have hkept : (g.decay entry.1 entry.2).2.weightAt key ≠ 0 := by
        rw [weightAt_expire] at hlive
        omega
      rw [ih hsound hlive, sound.ends?_decay, hsound.weightOf_eq, if_neg hkept,
        if_neg (Option.some_ne_none _)]

theorem Sound.edgeWeight_expire (sound : g.Sound) (expired : List (EdgeKey × Nat))
    {name : Identity} {object : ObjectId} {key : EdgeKey}
    (h : g.ends? key = some (name, object)) :
    ((g.expire expired).2.edgeWeight name object).getD 0 =
      (g.edgeWeight name object).getD 0 - Tally.share key expired := by
  have hsound := sound.expire expired
  rw [sound.edgeWeight_eq h, Option.getD_some, ← weightAt_expire]
  by_cases hgone : (g.expire expired).2.weightAt key = 0
  · have hnone : (g.expire expired).2.edgeWeight name object = none := by
      rw [hsound.edgeWeight_eq_none]
      intro other hother
      have hlive := hsound.weightAt_pos.mpr ⟨_, hother⟩
      rw [sound.ends?_expire, if_neg (Nat.ne_of_gt hlive)] at hother
      rw [sound.ends?_unique hother h, hgone] at hlive
      exact Nat.lt_irrefl 0 hlive
    rw [hnone, hgone, Option.getD_none]
  · have hends := sound.ends?_expire expired key
    rw [if_neg hgone, h] at hends
    rw [hsound.edgeWeight_eq hends, Option.getD_some]

end Expire

section ByEnds

theorem share_byEnds (g : AccessGraph) (entries : List (EdgeKey × Nat))
    (pair : Identity × ObjectId) :
    Tally.share pair (entries.filterMap fun (key, n) => (g.ends? key).map (·, n)) =
      addUp (entries.map fun entry => if g.ends? entry.1 = some pair then entry.2 else 0) := by
  induction entries with
  | nil => rfl
  | cons entry rest ih =>
    obtain ⟨key, n⟩ := entry
    rw [List.map_cons, addUp_cons, ← ih]
    cases hends : g.ends? key with
    | none => simp [hends]
    | some other => simp [hends]

theorem Linked.count_byEnds (linked : g.Linked) {key : EdgeKey} {pair : Identity × ObjectId}
    (h : g.ends? key = some pair) (counts : Tally EdgeKey) :
    (g.byEnds counts).count pair = counts.count key := by
  rw [byEnds, Tally.count_ofList, share_byEnds, ← Tally.share_entries, Tally.share]
  congr 2
  ext entry
  have hkey : g.ends? entry.1 = some pair ↔ entry.1 = key :=
    ⟨fun hentry => linked.ends?_unique hentry h, fun hentry => hentry ▸ h⟩
  simp only [hkey, Std.compare_eq_iff_eq]

theorem count_byEnds_eq_zero {pair : Identity × ObjectId} (h : ∀ key, g.ends? key ≠ some pair)
    (counts : Tally EdgeKey) : (g.byEnds counts).count pair = 0 := by
  rw [byEnds, Tally.count_ofList, share_byEnds]
  apply addUp_eq_zero
  intro n hmem
  obtain ⟨entry, -, rfl⟩ := List.mem_map.mp hmem
  exact if_neg (h entry.1)

theorem byEnds_congr {h : AccessGraph} {counts : Tally EdgeKey}
    (hends : ∀ key, counts.count key ≠ 0 → h.ends? key = g.ends? key) :
    h.byEnds counts = g.byEnds counts := by
  unfold byEnds
  congr 1
  apply List.filterMap_congr
  intro entry hmem
  obtain ⟨hcount, hpositive⟩ := Tally.mem_entries.mp hmem
  simp only [hends entry.1 (by omega)]

theorem Sound.count_byEnds_addEdges (sound : g.Sound) (name : Identity) {objects : List ObjectId}
    (hnodup : objects.Nodup) (period : Period) (pair : Identity × ObjectId) :
    ((g.touch name objects).2.byEnds (period.addEdges (g.touch name objects).1).edges).count pair =
      ((g.touch name objects).2.byEnds period.edges).count pair +
        if name = pair.1 ∧ pair.2 ∈ objects then 1 else 0 := by
  have hlinked := (sound.touch name objects).toLinked
  by_cases h : ∃ key, (g.touch name objects).2.ends? key = some pair
  · obtain ⟨key, hkey⟩ := h
    rw [hlinked.count_byEnds hkey, hlinked.count_byEnds hkey, Period.count_addEdges,
      sound.count_touch_fst hnodup hkey]
  · rw [not_exists] at h
    rw [count_byEnds_eq_zero h, count_byEnds_eq_zero h, if_neg]
    rintro ⟨rfl, hmem⟩
    obtain ⟨key, hkey⟩ := sound.exists_touch_fst pair.1 hmem
    exact h key hkey

end ByEnds

end Cohort.AccessGraph
