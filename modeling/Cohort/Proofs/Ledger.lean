import Cohort.Proofs.AccessGraph.Batches
import Cohort.Proofs.Window
import Mathlib.Data.Multiset.AddSub
import Mathlib.Logic.Relation

/-! The graph and the window are changed one after the other, so an increment may be in the graph
before it is noted in a period, and a period may have left the window before it is subtracted. In
whatever order these half-steps come, the weight under a key is what is pending for the key. -/

namespace Cohort

/-- The graph and the window between half-steps, with the keys that were given out but not noted
yet, and with the periods that left the window but are not subtracted yet. -/
structure Ledger where
  graph : AccessGraph
  window : Window
  inflight : Multiset EdgeKey
  unapplied : List Period

namespace Ledger

def start (w : Window) : Ledger :=
  ⟨∅, w, 0, []⟩

def increment (l : Ledger) (name : Identity) (object : ObjectId) : Ledger :=
  { l with
    graph := (l.graph.increment name object).2
    inflight := (l.graph.increment name object).1 ::ₘ l.inflight }

def record (l : Ledger) (keys : List EdgeKey) : Ledger :=
  { l with window := l.window.recordEdges keys, inflight := l.inflight - (keys : Multiset EdgeKey) }

def rotate (l : Ledger) : Ledger :=
  { l with
    window := l.window.rotate.2
    unapplied := l.unapplied ++ l.window.rotate.1.toList }

def settle (l : Ledger) (period : Period) (order : List (EdgeKey × Nat)) : Ledger :=
  { l with graph := (l.graph.expire order).2, unapplied := l.unapplied.erase period }

/-- Any half-step: only keys that are in flight are noted, and only what left the window is
subtracted. -/
inductive Step : Ledger → Ledger → Prop
  | increment (l : Ledger) (name : Identity) (object : ObjectId) : Step l (l.increment name object)
  | record (l : Ledger) (keys : List EdgeKey) (h : keys ≤ l.inflight) : Step l (l.record keys)
  | rotate (l : Ledger) : Step l l.rotate
  | settle (l : Ledger) (period : Period) (order : List (EdgeKey × Nat))
      (hmem : period ∈ l.unapplied) (horder : order.Perm period.edges.entries) :
      Step l (l.settle period order)

def owed (periods : List Period) (key : EdgeKey) : Nat :=
  addUp (periods.map (·.edges.count key))

/-- The increments of a key that are not subtracted yet. -/
def pending (l : Ledger) (key : EdgeKey) : Nat :=
  l.inflight.count key + l.window.noted key + owed l.unapplied key

structure Balanced (l : Ledger) : Prop where
  sound : l.graph.Sound
  within : l.window.Within
  weight : ∀ key, l.graph.weightAt key = l.pending key

theorem balanced_start {count : Nat} {w : Window} (h : Window.ofCount count = .ok w) :
    (start w).Balanced where
  sound := AccessGraph.sound_empty
  within := Window.within_of_ofCount h
  weight key := by
    simp only [pending, start, Multiset.count_zero, Window.noted_of_ofCount h, owed, List.map_nil,
      addUp_nil]
    rfl

variable {l l' : Ledger}

theorem Balanced.increment (balanced : l.Balanced) (name : Identity) (object : ObjectId) :
    (l.increment name object).Balanced where
  sound := balanced.sound.increment name object
  within := balanced.within
  weight key := by
    have hweight := balanced.weight key
    simp only [Ledger.increment, pending, balanced.sound.weightAt_increment,
      Multiset.count_cons] at hweight ⊢
    omega

theorem Balanced.record (balanced : l.Balanced) {keys : List EdgeKey} (h : keys ≤ l.inflight) :
    (l.record keys).Balanced where
  sound := balanced.sound
  within := balanced.within
  weight key := by
    have hweight := balanced.weight key
    have hcount := Multiset.le_iff_count.mp h key
    simp only [Ledger.record, pending, Window.noted_recordEdges, Multiset.count_sub,
      Multiset.coe_count] at hweight hcount ⊢
    omega

theorem Balanced.rotate (balanced : l.Balanced) : l.rotate.Balanced where
  sound := balanced.sound
  within := balanced.within.rotate
  weight key := by
    have hweight := balanced.weight key
    have hnoted := l.window.noted_rotate key
    simp only [Ledger.rotate, pending, owed, List.map_append, addUp_append] at hweight ⊢
    omega

theorem owed_erase {periods : List Period} {period : Period} (h : period ∈ periods)
    (key : EdgeKey) :
    period.edges.count key + owed (periods.erase period) key = owed periods key := by
  have hperm := (List.perm_cons_erase h).map fun p : Period => p.edges.count key
  exact (addUp_perm hperm).symm

theorem share_order {period : Period} {order : List (EdgeKey × Nat)}
    (h : order.Perm period.edges.entries) (key : EdgeKey) :
    Tally.share key order = period.edges.count key := by
  rw [Tally.share_perm h, Tally.share_entries]

theorem pending_settle {period : Period} (hmem : period ∈ l.unapplied)
    (order : List (EdgeKey × Nat)) (key : EdgeKey) :
    (l.settle period order).pending key + period.edges.count key = l.pending key := by
  have howed := owed_erase hmem key
  simp only [pending, settle]
  omega

theorem Balanced.settle (balanced : l.Balanced) {period : Period}
    {order : List (EdgeKey × Nat)} (hmem : period ∈ l.unapplied)
    (horder : order.Perm period.edges.entries) : (l.settle period order).Balanced where
  sound := balanced.sound.expire order
  within := balanced.within
  weight key := by
    have hweight := balanced.weight key
    have hpending := pending_settle hmem order key
    have hexpire := l.graph.weightAt_expire order key
    rw [share_order horder] at hexpire
    change (l.graph.expire order).2.weightAt key = _
    omega

theorem Balanced.step (balanced : l.Balanced) (step : Step l l') : l'.Balanced := by
  cases step with
  | increment name object => exact balanced.increment name object
  | record keys h => exact balanced.record h
  | rotate => exact balanced.rotate
  | settle period order hmem horder => exact balanced.settle hmem horder

theorem Balanced.run (balanced : l.Balanced) (run : Relation.ReflTransGen Step l l') :
    l'.Balanced := by
  induction run with
  | refl => exact balanced
  | tail _ step ih => exact ih.step step

/-- Halfway through a period, the weight of the edge that comes next is still untouched. -/
theorem Balanced.weight_midway (balanced : l.Balanced) {period : Period}
    {done rest : List (EdgeKey × Nat)} {key : EdgeKey} {amount : Nat}
    (horder : (done ++ (key, amount) :: rest).Perm period.edges.entries) :
    period.edges.count key = amount ∧ 0 < amount ∧
      (l.graph.expire done).2.weightAt key = l.pending key := by
  have hentry : (key, amount) ∈ period.edges.entries := horder.subset (by simp)
  obtain ⟨hcount, hpositive⟩ := Tally.mem_entries.mp hentry
  -- the key stands nowhere else in the order
  have hshare := share_order horder key
  simp only [Tally.share_append, Tally.share_cons, Std.compare_self, if_true, hcount] at hshare
  have hweight := balanced.weight key
  refine ⟨hcount, hpositive, ?_⟩
  rw [AccessGraph.weightAt_expire]
  omega

theorem run_count (run : Relation.ReflTransGen Step l l') : l'.window.count = l.window.count := by
  induction run with
  | refl => rfl
  | tail _ step ih =>
    rw [← ih]
    cases step with
    | rotate => exact Window.count_rotate _
    | _ => rfl

inductive Round : Ledger → Ledger → Prop
  | idle (l : Ledger) (h : l.window.rotate.1 = none) : Round l l.rotate
  | settle (l : Ledger) (period : Period) (order : List (EdgeKey × Nat))
      (h : l.window.rotate.1 = some period) (horder : order.Perm period.edges.entries) :
      Round l (l.rotate.settle period order)

inductive Rounds : Nat → Ledger → Ledger → Prop
  | none (l : Ledger) : Rounds 0 l l
  | more {n : Nat} {l l' l'' : Ledger} (rounds : Rounds n l l') (round : Round l' l'') :
      Rounds (n + 1) l l''

theorem exists_round (l : Ledger) : ∃ l', Round l l' := by
  cases h : l.window.rotate.1 with
  | none => exact ⟨_, .idle l h⟩
  | some period => exact ⟨_, .settle l period _ h (.refl _)⟩

theorem exists_rounds (n : Nat) (l : Ledger) : ∃ l', Rounds n l l' := by
  induction n with
  | zero => exact ⟨l, .none l⟩
  | succ n ih =>
    obtain ⟨l', rounds⟩ := ih
    obtain ⟨l'', round⟩ := l'.exists_round
    exact ⟨l'', rounds.more round⟩

theorem Round.steps (round : Round l l') : Relation.ReflTransGen Step l l' := by
  cases round with
  | idle _ => exact .single (.rotate l)
  | settle period order h horder =>
    have hmem : period ∈ l.rotate.unapplied := by simp [Ledger.rotate, h]
    exact .tail (.single (.rotate l)) (.settle _ period order hmem horder)

theorem Round.window (round : Round l l') : l'.window = l.window.rotate.2 := by
  cases round <;> rfl

theorem Round.inflight (round : Round l l') : l'.inflight = l.inflight := by
  cases round <;> rfl

theorem Round.unapplied (round : Round l l') (h : l.unapplied = []) : l'.unapplied = [] := by
  cases round with
  | idle hnone => simp [Ledger.rotate, h, hnone]
  | settle period order hsome _ => simp [Ledger.settle, Ledger.rotate, h, hsome]

theorem Rounds.steps {n : Nat} (rounds : Rounds n l l') : Relation.ReflTransGen Step l l' := by
  induction rounds with
  | none => exact .refl
  | more _ round ih => exact ih.trans round.steps

theorem Rounds.inflight {n : Nat} (rounds : Rounds n l l') : l'.inflight = l.inflight := by
  induction rounds with
  | none => rfl
  | more _ round ih => exact round.inflight.trans ih

theorem Rounds.unapplied {n : Nat} (rounds : Rounds n l l') (h : l.unapplied = []) :
    l'.unapplied = [] := by
  induction rounds with
  | none => exact h
  | more _ round ih => exact round.unapplied (ih h)

theorem Rounds.latest {n : Nat} (rounds : Rounds n l l') (within : l.window.Within) :
    l'.window.Within ∧ l'.window.count = l.window.count ∧
      l'.window.latest =
        (List.replicate n ∅ ++ l.window.latest).take (l.window.count + 1) := by
  induction rounds with
  | none l =>
    have hlength : l.window.latest.length ≤ l.window.count + 1 := by
      rw [Window.length_latest]
      exact Nat.succ_le_succ within
    exact ⟨within, rfl, (List.take_of_length_le hlength).symm⟩
  | more _ round ih =>
    obtain ⟨hwithin, hcount, hlatest⟩ := ih within
    rw [round.window]
    refine ⟨hwithin.rotate, by rw [Window.count_rotate, hcount], ?_⟩
    rw [Window.latest_rotate hwithin, hcount, hlatest, List.replicate_succ, List.cons_append,
      List.take_succ_cons, List.take_succ_cons, List.take_take]
    simp

theorem Rounds.noted {n : Nat} (rounds : Rounds n l l') (within : l.window.Within)
    (h : l.window.count < n) (key : EdgeKey) : l'.window.noted key = 0 := by
  obtain ⟨-, -, hlatest⟩ := rounds.latest within
  have hfits : l.window.count + 1 ≤ (List.replicate n (∅ : Period)).length := by
    rw [List.length_replicate]
    exact h
  rw [Window.noted, Window.tallies, hlatest, List.take_append_of_le_length hfits,
    List.take_replicate, List.map_replicate, List.map_replicate]
  apply addUp_eq_zero
  intro n hmem
  simp [List.eq_of_mem_replicate hmem]

theorem Round.ends? (round : Round l l') (sound : l.graph.Sound) {key : EdgeKey}
    (h : l'.graph.weightAt key ≠ 0) : l'.graph.ends? key = l.graph.ends? key := by
  cases round with
  | idle _ => rfl
  | settle period order _ _ => exact (sound.ends?_expire order key).trans (if_neg h)

theorem Balanced.live (balanced : l.Balanced) {counts : Tally EdgeKey}
    (hmem : counts ∈ l.window.tallies) {key : EdgeKey} (h : counts.count key ≠ 0) :
    l.graph.weightAt key ≠ 0 := by
  have hnoted : counts.count key ≤ l.window.noted key := le_addUp (List.mem_map_of_mem hmem)
  rw [balanced.weight, pending]
  omega

/-- Nothing is lost or counted twice: under every key the graph holds what is pending, so a period
finds all its edges, and as many rounds as the window has periods leave nothing. -/
theorem increments_conserved {count : Nat} {w : Window} (hw : Window.ofCount count = .ok w)
    {l : Ledger} (run : Relation.ReflTransGen Step (start w) l) :
    (∀ key, (l.graph.weightOf key).getD 0 = l.pending key) ∧
    (∀ period ∈ l.unapplied, ∀ done key amount rest,
      (done ++ (key, amount) :: rest).Perm period.edges.entries →
        ((l.graph.expire done).2.decay key amount).1 ≠ .missing ∧
        ∀ endpoints, ((l.graph.expire done).2.decay key amount).1 = .removed endpoints →
          (l.settle period (done ++ (key, amount) :: rest)).pending key = 0) ∧
    (l.inflight = 0 → l.unapplied = [] →
      (∃ l', Rounds (count + 1) l l') ∧ ∀ l', Rounds (count + 1) l l' →
        l'.graph.isEmpty ∧ l'.graph.edgeCount = 0 ∧ l'.graph.places = ∅) := by
  have hbalanced := (balanced_start hw).run run
  refine ⟨hbalanced.weight, ?_, ?_⟩
  · intro period hmem done key amount rest horder
    obtain ⟨hcount, hpositive, hweight⟩ := hbalanced.weight_midway horder
    have hpending := pending_settle hmem (done ++ (key, amount) :: rest) key
    rw [hcount] at hpending
    constructor
    · rw [ne_eq, (hbalanced.sound.expire done).decay_missing_iff]
      omega
    · intro endpoints hremoved
      have hle := AccessGraph.weightAt_of_removed hremoved
      omega
  · intro hinflight hunapplied
    refine ⟨l.exists_rounds _, fun l' rounds => ?_⟩
    have hcount : l.window.count = count := by
      rw [run_count run]
      exact Window.count_of_ofCount hw
    have hlast := hbalanced.run rounds.steps
    apply hlast.sound.isEmpty
    intro key
    have hpending : l'.pending key = 0 := by
      rw [pending, rounds.inflight, hinflight, rounds.unapplied hunapplied,
        rounds.noted hbalanced.within (by omega)]
      rfl
    rw [hlast.sound.weightOf_eq, hlast.weight, hpending, if_pos rfl]

theorem increments_conserved_single :
    (∀ key, (((start ⟨1, ∅, ∅⟩).increment "a" 7).graph.weightOf key).getD 0 =
      ((start ⟨1, ∅, ∅⟩).increment "a" 7).pending key) ∧
    ∀ l', Rounds 2 (((start ⟨1, ∅, ∅⟩).increment "a" 7).record
      [((∅ : AccessGraph).increment "a" 7).1]) l' → l'.graph.isEmpty := by
  have hw : Window.ofCount 1 = .ok ⟨1, ∅, ∅⟩ :=
    Window.ofCount_eq_ok.mpr ⟨by decide, by decide, rfl⟩
  have hfirst : Step (start ⟨1, ∅, ∅⟩) _ := .increment _ "a" 7
  have hsecond : Step ((start ⟨1, ∅, ∅⟩).increment "a" 7) _ :=
    .record _ [((∅ : AccessGraph).increment "a" 7).1] (le_refl _)
  refine ⟨(increments_conserved hw (.single hfirst)).1, fun l' rounds => ?_⟩
  have hdrained := (increments_conserved hw (.tail (.single hfirst) hsecond)).2.2
  exact ((hdrained (by simp [record, increment, start]) rfl).2 l' rounds).1

end Ledger

end Cohort
