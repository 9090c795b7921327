import Cohort.Proofs.AccessGraph.Keys
import Cohort.Proofs.SlidingWindow

/-! A tracker that others tamper with. In the open period they note keys that nothing was counted
under, and they take periods out of the window that are then never subtracted. What expires is
subtracted from the edge that it was counted on all the same, or from none. -/

namespace Cohort

namespace AccessGraph

variable {g : AccessGraph}

def decays (order : List (EdgeKey × Nat)) : List Change :=
  order.map fun entry => .decay entry.1 entry.2

theorem expire_eq_foldl (g : AccessGraph) (order : List (EdgeKey × Nat)) :
    (g.expire order).2 = (decays order).foldl change g := by
  rw [expire_snd, decays, List.foldl_map]
  rfl

theorem touch_eq_foldl (g : AccessGraph) (name : Identity) (objects : List ObjectId) :
    (g.touch name objects).2 = (objects.map (Change.increment name)).foldl change g := by
  induction objects generalizing g with
  | nil => rfl
  | cons object rest ih => exact ih _

theorem weightOf_expire_eq_none {key : EdgeKey} (h : g.weightOf key = none)
    (order : List (EdgeKey × Nat)) : (g.expire order).2.weightOf key = none := by
  induction order generalizing g with
  | nil => exact h
  | cons entry rest ih =>
    rw [expire_cons]
    exact ih (weightOf_decay_eq_none _ _ h)

/-- The entries of keys that hold nothing do nothing. -/
theorem expire_filter {dead : List EdgeKey} (h : ∀ key ∈ dead, g.weightOf key = none)
    (order : List (EdgeKey × Nat)) :
    (g.expire (order.filter (·.1 ∉ dead))).2 = (g.expire order).2 := by
  induction order generalizing g with
  | nil => rfl
  | cons entry rest ih =>
    rw [expire_cons]
    by_cases hdead : entry.1 ∈ dead
    · rw [decay_of_weightOf_eq_none (h _ hdead), List.filter_cons_of_neg (by simpa using hdead),
        ih h]
    · rw [List.filter_cons_of_pos (by simpa using hdead), expire_cons]
      exact ih fun key hkey => weightOf_decay_eq_none _ _ (h key hkey)

end AccessGraph

namespace Tracker

open AccessGraph

def changes (t : Tracker) : Action → List Change
  | .record name objects =>
    if Action.accepted name objects then (accessSet objects).map (Change.increment name) else []
  | .prune => decays (t.window.rotate.1.toList.flatMap (·.edges.entries))
  | _ => []

def pruneAs (t : Tracker) (order : List (EdgeKey × Nat)) : Tracker :=
  { t.prune.2 with graph := (t.graph.expire order).2 }

theorem pruneAs_entries {t : Tracker} {period : Period} (h : t.window.rotate.1 = some period) :
    t.pruneAs period.edges.entries = t.prune.2 := by
  simp [pruneAs, prune_of_some h]

theorem graph_act (t : Tracker) (action : Action) :
    (t.act action).graph = (t.changes action).foldl change t.graph := by
  cases action with
  | record name objects =>
    rw [act_record, changes]
    split
    next => exact touch_eq_foldl ..
    next => rfl
  | conflict node object =>
    rw [act_conflict]
    split <;> rfl
  | removeNode node => rfl
  | fold =>
    obtain ⟨places, counters, heq⟩ := t.act_fold
    rw [heq]
    rfl
  | objectUse => rfl
  | prune =>
    cases h : t.window.rotate.1 with
    | none => simp [act, changes, prune_of_none h, h, decays]
    | some period =>
      simp only [act, changes, ← pruneAs_entries h, h, Option.toList_some, List.flatMap_cons,
        List.flatMap_nil, List.append_nil]
      exact expire_eq_foldl ..

/-- The trackers that come of a fresh one, with what was done to the graph. Besides the actions,
keys and conflicts may be noted that nothing was counted for, a period may be lost as it leaves the
window, and an expired period may be subtracted in any order. -/
inductive Tampered (t₀ : Tracker) : List Change → Tracker → Prop
  | start : Tampered t₀ [] t₀
  | act {history : List Change} {t : Tracker} (run : Tampered t₀ history t) (action : Action) :
    Tampered t₀ (history ++ t.changes action) (t.act action)
  | noteEdges {history : List Change} {t : Tracker} (run : Tampered t₀ history t)
    (keys : List EdgeKey) : Tampered t₀ history { t with window := t.window.recordEdges keys }
  | noteConflict {history : List Change} {t : Tracker} (run : Tampered t₀ history t)
    (node : NodeId) (object : ObjectId) :
    Tampered t₀ history { t with window := t.window.recordConflict node object }
  | lose {history : List Change} {t : Tracker} (run : Tampered t₀ history t) :
    Tampered t₀ history t.rotate.2
  | prune {history : List Change} {t : Tracker} (run : Tampered t₀ history t) {period : Period}
    (expired : t.window.rotate.1 = some period) {order : List (EdgeKey × Nat)}
    (listed : order.Perm period.edges.entries) :
    Tampered t₀ (history ++ decays order) (t.pruneAs order)

theorem Tampered.graph_eq {t₀ t : Tracker} {history : List Change} (run : Tampered t₀ history t)
    (h : t₀.graph = ∅) : t.graph = after history := by
  induction run with
  | start => exact h
  | act _ action ih => rw [graph_act, ih, after_append]
  | noteEdges _ _ ih => exact ih
  | noteConflict _ _ _ ih => exact ih
  | lose _ ih => exact ih
  | prune _ _ _ ih => rw [after_append, ← expire_eq_foldl, ← ih, pruneAs]

theorem Tampered.sound {count : Nat} {t₀ t : Tracker} {history : List Change}
    (run : Tampered t₀ history t) (hcount : ofCount count = .ok t₀) : t.graph.Sound := by
  obtain ⟨_, -, rfl⟩ := ofCount_eq_ok hcount
  exact run.graph_eq rfl ▸ sound_after history

section Expired

variable {t₀ t : Tracker} {history : List Change}

theorem Tampered.decay_retired (run : Tampered t₀ history t) (h : t₀.graph = ∅)
    (unwrapped : Unwrapped history) {key : EdgeKey} (hretired : key ∈ retired history)
    (done : List (EdgeKey × Nat)) (amount : Nat) :
    (t.graph.expire done).2.decay key amount = (.missing, (t.graph.expire done).2) := by
  rw [run.graph_eq h]
  exact decay_of_weightOf_eq_none
    (weightOf_expire_eq_none (stale_of_retired unwrapped hretired).weightOf done)

theorem Tampered.pruneAs_filter (run : Tampered t₀ history t) (h : t₀.graph = ∅)
    (unwrapped : Unwrapped history) (order : List (EdgeKey × Nat)) :
    t.pruneAs (order.filter (·.1 ∉ retired history)) = t.pruneAs order := by
  have hdead : ∀ key ∈ retired history, t.graph.weightOf key = none := by
    rw [run.graph_eq h]
    exact fun key hkey => (stale_of_retired unwrapped hkey).weightOf
  simp only [pruneAs, expire_filter hdead]

theorem Tampered.edgeWeight_pruneAs (run : Tampered t₀ history t) (h : t₀.graph = ∅)
    {period : Period} {order : List (EdgeKey × Nat)}
    (horder : order.Perm period.edges.entries) {name : Identity} {object : ObjectId}
    {key : EdgeKey} (hkey : t.graph.key? name object = some key) :
    ((t.pruneAs order).graph.edgeWeight name object).getD 0 =
      (t.graph.edgeWeight name object).getD 0 - period.edges.count key := by
  have hsound : t.graph.Sound := run.graph_eq h ▸ sound_after history
  rw [← Ledger.share_order horder]
  exact hsound.edgeWeight_expire order (hsound.key?_eq_some.mp hkey)

end Expired

end Tracker

open AccessGraph Tracker

/-- As long as no slot is freed so often that its generation comes round again, a key stands for one
edge for ever, and what was counted for an edge is never subtracted from a later one. -/
theorem keys_never_alias :
    (∀ history, Unwrapped history → ∀ key ∈ retired history, (after history).Stale key) ∧
    (∀ history name object, (after (history ++ [.increment name object])).key? name object =
      some ((after history).increment name object).1) ∧
    (∀ before later name object key, (after before).key? name object = some key →
      key ∉ (after before).retirees later →
        (after (before ++ later)).key? name object = some key ∧
          ((after (before ++ later)).increment name object).1 = key) ∧
    (∀ history name object other seen key, (after history).key? name object = some key →
      (after history).key? other seen = some key → name = other ∧ object = seen) ∧
    ∀ count t₀ history t, ofCount count = .ok t₀ → Tampered t₀ history t → Unwrapped history →
      t.graph = after history ∧
      (∀ key ∈ retired history, ∀ done amount, (t.graph.expire done).2.decay key amount =
        (.missing, (t.graph.expire done).2)) ∧
      ∀ period order, t.window.rotate.1 = some period → order.Perm period.edges.entries →
        t.pruneAs (order.filter (·.1 ∉ retired history)) = t.pruneAs order ∧
        ∀ name object key, t.graph.key? name object = some key → key ∉ retired history ∧
          ((t.pruneAs order).graph.edgeWeight name object).getD 0 =
            (t.graph.edgeWeight name object).getD 0 - period.edges.count key := by
  refine ⟨fun history unwrapped key => stale_of_retired unwrapped, key?_after_increment,
    fun _ _ _ _ _ => key?_after_append,
    fun history _ _ _ _ _ => (sound_after history).key?_inj, ?_⟩
  intro count t₀ history t hcount run unwrapped
  have hfresh : t₀.graph = ∅ := by
    obtain ⟨w, -, rfl⟩ := ofCount_eq_ok hcount
    rfl
  have hgraph := run.graph_eq hfresh
  refine ⟨hgraph, fun key hkey => run.decay_retired hfresh unwrapped hkey, ?_⟩
  intro period order _ horder
  refine ⟨run.pruneAs_filter hfresh unwrapped order, fun name object key hkey => ⟨?_, ?_⟩⟩
  · exact not_mem_retired_of_key? unwrapped (hgraph ▸ hkey)
  · exact run.edgeWeight_pruneAs hfresh horder hkey

theorem keys_never_alias_reused :
    (after [.increment "a" 7, .decay ⟨0, 0⟩ 1, .increment "a" 7]).Stale ⟨0, 0⟩ ∧
    (after ([.increment "a" 7] ++ [.increment "b" 7])).key? "a" 7 = some ⟨0, 0⟩ ∧
    ∃ t₀ t, ofCount 1 = .ok t₀ ∧
      Tampered t₀ [.increment "a" 7, .decay ⟨0, 0⟩ 1, .increment "a" 7] t ∧
      (t.window.rotate.1.map (·.edges.entries)) = some [(⟨0, 0⟩, 1)] ∧
      t.graph.key? "a" 7 = some ⟨0, 1⟩ ∧
      ((t.pruneAs [(⟨0, 0⟩, 1)]).graph.edgeWeight "a" 7).getD 0 = 1 := by
  have hcount : ofCount 1 = .ok ⟨∅, ∅, ⟨1, ∅, ∅⟩, ∅, .zero⟩ := rfl
  have unwrapped : Unwrapped [.increment "a" 7, .decay ⟨0, 0⟩ 1, .increment "a" 7] :=
    unwrapped_of_length (by decide)
  have counted := (@Tampered.start ⟨∅, ∅, ⟨1, ∅, ∅⟩, ∅, .zero⟩).act (.record "a" [7])
  have run := (((counted.act .prune).noteEdges [⟨0, 0⟩]).act .prune).act (.record "a" [7])
  have expired := (keys_never_alias.2.2.2.2 1 _ _ _ hcount run unwrapped).2.2
  refine ⟨keys_never_alias.1 _ unwrapped ⟨0, 0⟩ (by decide),
    (keys_never_alias.2.2.1 [.increment "a" 7] [.increment "b" 7] "a" 7 ⟨0, 0⟩ (by decide)
      (by decide)).1,
    _, _, hcount, run, by decide, by decide, ?_⟩
  exact (expired _ _ rfl (.refl _)).2 "a" 7 ⟨0, 1⟩ (by decide) |>.2

end Cohort
