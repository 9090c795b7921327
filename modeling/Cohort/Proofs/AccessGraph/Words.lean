import Cohort.Proofs.AccessGraph.Batches
import Cohort.Proofs.AccessGraph.Histories

/-! Weights stay inside a word. An edge weighs no more than was counted for its pair, so until a
pair was counted as often as a word has values, it makes no difference that weights are words. -/

namespace Cohort

theorem Arena.modify_congr {α : Type} {a : Arena α} {key : Key} {f g : α → α}
    (h : ∀ value, a.get? key = some value → f value = g value) :
    a.modify key f = a.modify key g := by
  have hslots : (a.slots.modify key.index fun slot => slot.modify key.generation f) =
      a.slots.modify key.index fun slot => slot.modify key.generation g := by
    apply Array.ext_getElem?
    intro i
    rw [Array.getElem?_modify, Array.getElem?_modify]
    split
    next hi =>
      subst hi
      cases hslot : a.slots[key.index]? with
      | none => rfl
      | some slot =>
        obtain ⟨present, value⟩ := slot
        refine congrArg some ?_
        unfold Slot.modify
        dsimp only
        split
        next hpresent =>
          cases value with
          | none => rfl
          | some value =>
            have hget : a.get? key = some value := by simp [get?, hslot, hpresent]
            rw [Option.map_some, Option.map_some, h value hget]
        next => rfl
    next => rfl
  exact congrArg (Arena.mk · a.free a.size) hslots

namespace AccessGraph

section Bound

variable {g : AccessGraph}

theorem Sound.ends?_of_decay (sound : g.Sound) {key other : EdgeKey} {amount : Nat}
    {pair : Identity × ObjectId} (h : (g.decay key amount).2.ends? other = some pair) :
    g.ends? other = some pair := by
  rw [sound.ends?_decay] at h
  split at h
  next => cases h
  next => exact h

/-- Whatever was subtracted, an edge weighs at most what was counted for its pair. -/
theorem weightAt_le_count {history : List Change} {key : EdgeKey} {name : Identity}
    {object : ObjectId} (h : (after history).ends? key = some (name, object)) :
    (after history).weightAt key ≤ history.count (.increment name object) := by
  induction history using List.reverseRecOn with
  | nil =>
    have hnone : (∅ : AccessGraph).ends? key = none := rfl
    rw [after_nil, hnone] at h
    cases h
  | append_singleton history c ih =>
    have hsound := sound_after history
    rw [after_concat] at h ⊢
    rw [List.count_append]
    cases c with
    | increment other wanted =>
      change ((after history).increment other wanted).2.ends? key = _ at h
      change ((after history).increment other wanted).2.weightAt key ≤ _
      rw [hsound.weightAt_increment]
      rw [hsound.ends?_increment] at h
      split at h
      next hkey =>
        obtain ⟨rfl, rfl⟩ := Prod.mk.inj (Option.some.inj h)
        rw [if_pos hkey, List.count_singleton_self]
        refine Nat.add_le_add_right ?_ 1
        -- an edge that is made just now weighed nothing before
        rcases hsound.ends?_increment_fst other wanted with hown | hnew
        · exact ih (hkey ▸ hown)
        · rw [hkey, weightAt, (hsound.ends?_eq_none).mp hnew]
          exact Nat.zero_le _
      next hkey =>
        rw [if_neg hkey]
        exact Nat.le_trans (ih h) (Nat.le_add_right ..)
    | decay other amount =>
      change ((after history).decay other amount).2.ends? key = _ at h
      change ((after history).decay other amount).2.weightAt key ≤ _
      have hbefore := ih (hsound.ends?_of_decay h)
      rw [weightAt_decay]
      omega

end Bound

section Checked

variable {g : AccessGraph} (name : Identity) (object : ObjectId)

/-- Count one access, and fail if the weight leaves the word. -/
def incrementInWord (g : AccessGraph) (name : Identity) (object : ObjectId) :
    Except Overflow (EdgeKey × AccessGraph) :=
  let (left, g) := g.ensure (.identity name)
  let (right, g) := g.ensure (.object object)
  match g.index[(left, right)]?.bind fun key => (g.edges.get? key).map (key, ·) with
  | some (key, edge) => do
    let weight ← edge.weight.increment
    return (key, { g with edges := g.edges.modify key fun edge => { edge with weight } })
  | none => .ok (g.connect left right)

theorem incrementInWord_eq_match (g : AccessGraph) :
    g.incrementInWord name object =
      match g.index[g.sidesOf name object]?.bind fun key => (g.edges.get? key).map (key, ·) with
      | some (key, edge) => do
        let weight ← edge.weight.increment
        return (key, { g.settle name object with
          edges := g.edges.modify key fun edge => { edge with weight } })
      | none => .ok ((g.settle name object).connect (g.sidesOf name object).1
          (g.sidesOf name object).2) := by
  rw [← index_settle name object g, ← edges_settle name object g]
  rfl

theorem Linked.incrementInWord_eq (linked : g.Linked)
    (h : ∀ weight, g.edgeWeight name object = some weight → weight + 1 < wordBound) :
    g.incrementInWord name object = .ok (g.increment name object) := by
  rw [incrementInWord_eq_match, increment_eq]
  cases hindex : g.index[g.sidesOf name object]? with
  | none => rfl
  | some key =>
    obtain ⟨⟨edge, hedge⟩, hends⟩ := linked.ends?_of_index name object hindex
    have hweight : g.weightOf key = some edge.weight := weightOf_eq_some.mpr ⟨edge, hedge, rfl⟩
    have hfits := h edge.weight (linked.edgeWeight_eq_some.mpr ⟨key, hends, hweight⟩)
    have hnext : edge.weight.increment = .ok (edge.weight + 1) := inWord_eq_ok.mpr ⟨hfits, rfl⟩
    have hedges : (g.edges.modify key fun edge' => { edge' with weight := edge.weight + 1 }) =
        g.edges.modify key fun edge' => { edge' with weight := edge'.weight + 1 } := by
      refine Arena.modify_congr fun edge' hedge' => ?_
      obtain rfl : edge = edge' := Option.some.inj (hedge.symm.trans hedge')
      rfl
    simp only [Option.bind_some, hedge, Option.map_some, hnext, Option.filter, Option.isSome_some,
      if_true]
    rw [← hedges]
    rfl

def changeInWord (g : AccessGraph) : Change → Except Overflow AccessGraph
  | .increment name object => return (← g.incrementInWord name object).2
  | .decay key amount => return (g.decay key amount).2

/-- Weights are words, as long as no pair is counted as often as a word has values. -/
theorem changes_in_word (history : List Change)
    (h : ∀ name object, history.count (.increment name object) < wordBound) :
    history.foldlM changeInWord ∅ = .ok (after history) := by
  induction history using List.reverseRecOn with
  | nil => rfl
  | append_singleton history c ih =>
    have hsound := sound_after history
    have hearlier (name : Identity) (object : ObjectId) :
        history.count (.increment name object) < wordBound := by
      have hall := h name object
      rw [List.count_append] at hall
      omega
    rw [List.foldlM_append, ih hearlier, after_concat]
    cases c with
    | decay key amount => rfl
    | increment name object =>
      have hfits := h name object
      rw [List.count_append, List.count_singleton_self] at hfits
      have hcounted : (after history).incrementInWord name object =
          .ok ((after history).increment name object) := by
        refine hsound.incrementInWord_eq name object fun weight hweight => ?_
        obtain ⟨key, hends, hkey⟩ := hsound.edgeWeight_eq_some.mp hweight
        have hle := weightAt_le_count hends
        rw [weightAt, hkey, Option.getD_some] at hle
        exact Nat.lt_of_le_of_lt (Nat.add_le_add_right hle 1) hfits
      have hstep : (after history).changeInWord (.increment name object) =
          .ok ((after history).change (.increment name object)) := by
        rw [changeInWord, hcounted]
        rfl
      change List.foldlM changeInWord (after history) [.increment name object] = _
      rw [List.foldlM_cons, hstep]
      rfl

end Checked

end AccessGraph

end Cohort
