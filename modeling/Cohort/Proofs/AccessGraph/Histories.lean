import Cohort.Proofs.AccessGraph.Weights
import Mathlib.Data.List.Induction

/-! Graphs with a history: what was counted and subtracted since the graph was empty. After any
history the two arenas, the two indices and the lists of edges agree with each other. -/

namespace Cohort

/-- A change of the graph. The key that is subtracted under may resolve or not. -/
inductive Change where
  | increment (name : Identity) (object : ObjectId)
  | decay (key : EdgeKey) (amount : Nat)
  deriving DecidableEq, Repr

namespace AccessGraph

def change (g : AccessGraph) : Change → AccessGraph
  | .increment name object => (g.increment name object).2
  | .decay key amount => (g.decay key amount).2

def after (history : List Change) : AccessGraph :=
  history.foldl change ∅

@[simp] theorem after_nil : after [] = ∅ :=
  rfl

@[simp] theorem after_concat (history : List Change) (c : Change) :
    after (history ++ [c]) = (after history).change c :=
  List.foldl_concat ..

theorem after_append (history rest : List Change) :
    after (history ++ rest) = rest.foldl change (after history) :=
  List.foldl_append

theorem Sound.change {g : AccessGraph} (sound : g.Sound) (c : Change) : (g.change c).Sound := by
  cases c with
  | increment name object => exact sound.increment name object
  | decay key amount => exact sound.decay key amount

theorem sound_after (history : List Change) : (after history).Sound := by
  induction history using List.reverseRecOn with
  | nil => exact sound_empty
  | append_singleton history c ih =>
    rw [after_concat]
    exact ih.change c

/-- After any history the sizes, the free lists, both indices and the lists of edges tell the same:
which edges are live, and which vertices they join. -/
theorem structures_agree (history : List Change) :
    (after history).hubs.Accounted ∧ (after history).edges.Accounted ∧
    (∀ vertex key, (after history).places[vertex]? = some key ↔
      ∃ hub, (after history).hubs.get? key = some hub ∧ hub.vertex = vertex) ∧
    (∀ left right key, (after history).index[(left, right)]? = some key ↔
      ∃ edge, (after history).edges.get? key = some edge ∧
        edge.identity = left ∧ edge.object = right) ∧
    (∀ key edge, (after history).edges.get? key = some edge → 1 ≤ edge.weight ∧
      (∃ hub name, (after history).hubs.get? edge.identity = some hub ∧
        hub.vertex = .identity name) ∧
      ∃ hub object, (after history).hubs.get? edge.object = some hub ∧
        hub.vertex = .object object) ∧
    ∀ key hub, (after history).hubs.get? key = some hub →
      hub.edges.toList.Nodup ∧ hub.edges.size ≠ 0 ∧
      ∀ e, e ∈ hub.edges ↔ ∃ edge, (after history).edges.get? e = some edge ∧
        (edge.identity = key ∨ edge.object = key) := by
  have sound := sound_after history
  refine ⟨sound.hubs.accounted, sound.edges.accounted, ?_, ?_, ?_, ?_⟩
  · intro vertex key
    rw [sound.places, vertexAt_eq_some]
  · intro left right key
    rw [sound.index, Option.map_eq_some_iff]
    simp only [AccessEdge.sides, Prod.mk.injEq]
  · intro key edge hedge
    obtain ⟨⟨name, hname⟩, ⟨object, hobject⟩⟩ := sound.sides hedge
    obtain ⟨left, hleft, hl⟩ := vertexAt_eq_some.mp hname
    obtain ⟨right, hright, hr⟩ := vertexAt_eq_some.mp hobject
    exact ⟨sound.positive hedge, ⟨left, name, hleft, hl⟩, ⟨right, object, hright, hr⟩⟩
  · intro key hub hhub
    refine ⟨sound.nodup hhub, ?_, sound.incident hhub⟩
    rw [ne_eq, Array.size_eq_zero_iff]
    exact sound.busy hhub

end AccessGraph

end Cohort
