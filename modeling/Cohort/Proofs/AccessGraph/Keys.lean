import Cohort.Proofs.AccessGraph.Histories

/-! Keys of edges and the generations of their slots. A slot is in the generation that counts how
often it was freed, so a key that lost its edge is of an earlier generation than its slot for as
long as that count does not wrap. -/

namespace Cohort.AccessGraph

variable {g : AccessGraph}

def freed (g : AccessGraph) : Change → Option EdgeKey
  | .increment _ _ => none
  | .decay key amount =>
    match (g.decay key amount).1 with
    | .removed _ => some key
    | _ => none

/-- The keys whose edges a history cuts off, in the order in which it does. -/
def retirees (g : AccessGraph) : List Change → List EdgeKey
  | [] => []
  | c :: rest => (g.freed c).toList ++ (g.change c).retirees rest

def retired (history : List Change) : List EdgeKey :=
  (∅ : AccessGraph).retirees history

def frees (index : Nat) (history : List Change) : Nat :=
  (retired history).countP (·.index == index)

/-- No slot was freed so often that its generation came round again. -/
def Unwrapped (history : List Change) : Prop :=
  ∀ index, frees index history < UInt32.size

/-- A key that holds nothing, takes nothing and is not given out. -/
structure Stale (g : AccessGraph) (key : EdgeKey) : Prop where
  weightOf : g.weightOf key = none
  decay : ∀ amount, g.decay key amount = (.missing, g)
  increment : ∀ name object, (g.increment name object).1 ≠ key

theorem freed_eq_some {c : Change} {key : EdgeKey} : g.freed c = some key ↔
    ∃ amount weight, c = .decay key amount ∧ g.weightOf key = some weight ∧ weight ≤ amount := by
  cases c with
  | increment name object => simp [freed]
  | decay other amount =>
    rcases @decay_cases g other amount with ⟨hnone, heq⟩ | ⟨weight, hsome, hless, heq⟩ |
      ⟨edge, endpoints, hget, hle, heq⟩
    · simp only [freed, heq, reduceCtorEq, Change.decay.injEq, false_iff]
      rintro ⟨_, weight, ⟨rfl, rfl⟩, hweight, -⟩
      rw [hnone] at hweight
      cases hweight
    · simp only [freed, heq, reduceCtorEq, Change.decay.injEq, false_iff]
      rintro ⟨_, _, ⟨rfl, rfl⟩, hweight, hle⟩
      rw [hsome] at hweight
      cases hweight
      exact absurd hless (Nat.not_lt.mpr hle)
    · simp only [freed, heq, Option.some.injEq, Change.decay.injEq]
      constructor
      · rintro rfl
        exact ⟨amount, edge.weight, ⟨rfl, rfl⟩, weightOf_eq_some.mpr ⟨edge, hget, rfl⟩, hle⟩
      · rintro ⟨_, _, ⟨rfl, rfl⟩, -⟩
        rfl

theorem generation_of_weightOf {key : EdgeKey} {weight : Weight}
    (h : g.weightOf key = some weight) : g.edges.generation key.index = key.generation := by
  obtain ⟨edge, hget, -⟩ := weightOf_eq_some.mp h
  exact Arena.generation_of_get? hget

section Generations

theorem generation_increment (name : Identity) (object : ObjectId) (index : Nat) :
    (g.increment name object).2.edges.generation index = g.edges.generation index := by
  rw [increment_eq]
  split
  next => exact Arena.generation_modify ..
  next =>
    rw [← edges_settle name object g]
    exact Arena.generation_insert ..

theorem generation_increment_fst (name : Identity) (object : ObjectId) :
    g.edges.generation (g.increment name object).1.index =
      (g.increment name object).1.generation := by
  rw [increment_eq]
  split
  next key hkey =>
    obtain ⟨-, hlive⟩ := Option.filter_eq_some_iff.mp hkey
    obtain ⟨edge, hget⟩ := Option.isSome_iff_exists.mp hlive
    exact Arena.generation_of_get? hget
  next =>
    rw [← edges_settle name object g]
    exact Arena.generation_insert_fst _

theorem generation_change (c : Change) (index : Nat) :
    (g.change c).edges.generation index = g.edges.generation index +
      UInt32.ofNat ((g.freed c).toList.countP (·.index == index)) := by
  cases c with
  | increment name object =>
    rw [change, generation_increment]
    exact (UInt32.add_zero _).symm
  | decay key amount =>
    rcases @decay_cases g key amount with ⟨-, heq⟩ | ⟨weight, -, -, heq⟩ |
      ⟨edge, endpoints, hget, -, heq⟩
    · simp [change, freed, heq]
    · simp [change, freed, heq]
    · have hedges : (g.cut key edge).edges = g.edges.remove key := by simp [cut]
      simp only [change, freed, heq, hedges, Arena.generation_remove hget]
      by_cases hindex : key.index = index <;> simp [hindex]

theorem retirees_append (history rest : List Change) :
    g.retirees (history ++ rest) =
      g.retirees history ++ (history.foldl change g).retirees rest := by
  induction history generalizing g with
  | nil => rfl
  | cons c history ih =>
    simp only [List.cons_append, retirees, ih, List.append_assoc, List.foldl_cons]

theorem retired_append (history rest : List Change) :
    retired (history ++ rest) = retired history ++ (after history).retirees rest :=
  retirees_append ..

theorem frees_append (index : Nat) (history rest : List Change) :
    frees index (history ++ rest) =
      frees index history + ((after history).retirees rest).countP (·.index == index) := by
  rw [frees, retired_append, List.countP_append]
  rfl

theorem length_retirees_le (history : List Change) :
    (g.retirees history).length ≤ history.length := by
  induction history generalizing g with
  | nil => exact Nat.le_refl 0
  | cons c rest ih =>
    have hfreed : (g.freed c).toList.length ≤ 1 := by cases g.freed c <;> simp
    have hrest := @ih (g.change c)
    simp only [retirees, List.length_append, List.length_cons]
    omega

theorem unwrapped_of_length {history : List Change} (h : history.length < UInt32.size) :
    Unwrapped history :=
  fun _ => Nat.lt_of_le_of_lt (Nat.le_trans List.countP_le_length (length_retirees_le history)) h

/-- A slot is in the generation that counts how often it was freed. -/
theorem generation_after (history : List Change) (index : Nat) :
    (after history).edges.generation index = UInt32.ofNat (frees index history) := by
  induction history using List.reverseRecOn with
  | nil => rfl
  | append_singleton history c ih =>
    rw [after_concat, generation_change, ih, ← UInt32.ofNat_add, frees_append]
    simp [retirees]

theorem generation_of_retired {history : List Change} {key : EdgeKey}
    (h : key ∈ retired history) :
    ∃ n, n < frees key.index history ∧ key.generation = UInt32.ofNat n := by
  induction history using List.reverseRecOn with
  | nil => cases h
  | append_singleton history c ih =>
    rw [retired_append, List.mem_append] at h
    rw [frees_append]
    rcases h with hold | hnew
    · obtain ⟨n, hless, hgeneration⟩ := ih hold
      exact ⟨n, by omega, hgeneration⟩
    · -- the edge was live until now, so its key was of the present generation
      have hfreed : (after history).freed c = some key := by simpa [retirees] using hnew
      obtain ⟨amount, weight, -, hweight, -⟩ := freed_eq_some.mp hfreed
      have hgeneration := generation_of_weightOf hweight
      rw [generation_after] at hgeneration
      refine ⟨frees key.index history, ?_, hgeneration.symm⟩
      simp [retirees, hfreed]

theorem generation_ne_of_retired {history : List Change} (unwrapped : Unwrapped history)
    {key : EdgeKey} (h : key ∈ retired history) :
    (after history).edges.generation key.index ≠ key.generation := by
  obtain ⟨n, hless, hgeneration⟩ := generation_of_retired h
  have hfrees := unwrapped key.index
  rw [generation_after, hgeneration, ne_eq, ← UInt32.toNat_inj,
    UInt32.toNat_ofNat_of_lt' hfrees, UInt32.toNat_ofNat_of_lt' (Nat.lt_trans hless hfrees)]
  exact Nat.ne_of_gt hless

theorem stale_of_retired {history : List Change} (unwrapped : Unwrapped history) {key : EdgeKey}
    (h : key ∈ retired history) : (after history).Stale key := by
  have hgeneration := generation_ne_of_retired unwrapped h
  have hweight : (after history).weightOf key = none :=
    weightOf_eq_none.mpr (Arena.get?_eq_none_of_generation hgeneration)
  refine ⟨hweight, fun amount => decay_of_weightOf_eq_none hweight, ?_⟩
  rintro name object rfl
  exact hgeneration (generation_increment_fst name object)

end Generations

section Live

theorem Sound.ends?_change (sound : g.Sound) {c : Change} {key : EdgeKey}
    {pair : Identity × ObjectId} (h : g.ends? key = some pair) (hkept : g.freed c ≠ some key) :
    (g.change c).ends? key = some pair := by
  cases c with
  | increment name object => exact sound.ends?_increment_of_some name object h
  | decay other amount =>
    rw [AccessGraph.change, sound.ends?_decay, if_neg, h]
    intro hgone
    obtain ⟨weight, hweight, -⟩ := sound.weight_of_ends? h
    rw [weightOf_decay] at hgone
    split at hgone
    next hkey =>
      subst hkey
      refine hkept (freed_eq_some.mpr ⟨amount, weight, rfl, hweight, ?_⟩)
      simpa [hweight] using hgone
    next =>
      rw [hweight] at hgone
      cases hgone

theorem Sound.ends?_run (sound : g.Sound) (history : List Change) {key : EdgeKey}
    {pair : Identity × ObjectId} (h : g.ends? key = some pair) (hkept : key ∉ g.retirees history) :
    (history.foldl AccessGraph.change g).ends? key = some pair := by
  induction history generalizing g with
  | nil => exact h
  | cons c rest ih =>
    simp only [retirees, List.mem_append, Option.mem_toList, not_or] at hkept
    exact ih (sound.change c) (sound.ends?_change h hkept.1) hkept.2

theorem key?_after_increment (history : List Change) (name : Identity) (object : ObjectId) :
    (after (history ++ [.increment name object])).key? name object =
      some ((after history).increment name object).1 := by
  have hsound := sound_after history
  rw [after_concat, (hsound.change _).key?_eq_some, change, hsound.ends?_increment, if_pos rfl]

/-- As long as its edge is not cut off, a pair is counted under the key that it has. -/
theorem key?_after_append {before later : List Change} {name : Identity} {object : ObjectId}
    {key : EdgeKey} (hkey : (after before).key? name object = some key)
    (hkept : key ∉ (after before).retirees later) :
    (after (before ++ later)).key? name object = some key ∧
      ((after (before ++ later)).increment name object).1 = key := by
  have hbefore := sound_after before
  have hsound := sound_after (before ++ later)
  have hends : (after (before ++ later)).ends? key = some (name, object) := by
    rw [after_append]
    exact hbefore.ends?_run later (hbefore.key?_eq_some.mp hkey) hkept
  exact ⟨hsound.key?_eq_some.mpr hends, hsound.increment_fst name object hends⟩

theorem Linked.key?_inj (linked : g.Linked) {name other : Identity} {object seen : ObjectId}
    {key : EdgeKey} (hl : g.key? name object = some key) (hr : g.key? other seen = some key) :
    name = other ∧ object = seen := by
  rw [linked.key?_eq_some] at hl hr
  rw [hl] at hr
  cases hr
  exact ⟨rfl, rfl⟩

theorem not_mem_retired_of_key? {history : List Change} (unwrapped : Unwrapped history)
    {name : Identity} {object : ObjectId} {key : EdgeKey}
    (hkey : (after history).key? name object = some key) : key ∉ retired history := by
  intro hretired
  have hsound := sound_after history
  have hgone := (stale_of_retired unwrapped hretired).weightOf
  rw [← hsound.ends?_eq_none, hsound.key?_eq_some.mp hkey] at hgone
  cases hgone

end Live

end Cohort.AccessGraph
